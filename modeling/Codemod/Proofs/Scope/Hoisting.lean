import Codemod.Proofs.Scope.Functions

/-!
# Where variables are declared

A `var` stops at the nearest scope that holds variables; a `let` or a `const`
stays in its block, which lies in such a scope.  Either way a declaration of
variables belongs to one holder.  `Effect` states what a balanced run of steps
adds to a survey in these terms: every new site of a variable either belongs
to the holder that was open before and is one that the run lets out, or to a
holder that opened and closed during the run.
-/

namespace Codemod

namespace ScopeTable

/-- Whether variables stop at a scope of the table. -/
def holdsVariables (table : ScopeTable) (id : ScopeId) : Bool :=
  (table.get? id).any fun scope => scope.kind.holdsVariables

/-- The nearest scope, from one outwards, at which variables stop. -/
def holder? (table : ScopeTable) (id : ScopeId) : Option ScopeId :=
  (table.ancestors id).find? table.holdsVariables

variable {table older newer : ScopeTable} {id : ScopeId}

theorem Extends.holdsVariables_eq (extends_ : older.Extends newer)
    (inside : id < older.scopes.length) :
    newer.holdsVariables id = older.holdsVariables id := by
  obtain ⟨scope, found⟩ := exists_get? inside
  obtain ⟨kept, keptFound, _, sameKind⟩ := extends_ id scope found
  simp [holdsVariables, found, keptFound, sameKind]

/-- More scopes and more declarations do not change the holders of old scopes. -/
theorem Extends.holder?_eq (extends_ : older.Extends newer) (olderFormed : older.WellFormed)
    (newerFormed : newer.WellFormed) (inside : id < older.scopes.length) :
    newer.holder? id = older.holder? id := by
  rw [holder?, holder?, extends_.ancestors_eq olderFormed newerFormed inside,
    ← List.head?_filter, ← List.head?_filter]
  congr 1
  refine List.filter_congr fun ancestor member => ?_
  exact extends_.holdsVariables_eq (olderFormed.le_of_mem_ancestors member).2

theorem holder?_spec {holder : ScopeId} (found : table.holder? id = some holder) :
    holder ∈ table.ancestors id ∧ table.holdsVariables holder = true :=
  ⟨List.mem_of_find?_eq_some found, List.find?_some found⟩

theorem WellFormed.holder?_of_holds (wellFormed : table.WellFormed)
    (holds : table.holdsVariables id = true) : table.holder? id = some id := by
  have inside : id < table.scopes.length := by
    cases found : table.get? id with
    | none => simp [holdsVariables, found] at holds
    | some scope => exact lt_length_of_get? found
  obtain ⟨around, way⟩ := wellFormed.ancestors_head inside
  rw [holder?, way, List.find?_cons_of_pos holds]

theorem WellFormed.holder?_parent (wellFormed : table.WellFormed) {parent : ScopeId} {scope : Scope}
    (found : table.get? id = some scope) (around : scope.parent = some parent)
    (passes : table.holdsVariables id = false) :
    table.holder? id = table.holder? parent := by
  rw [holder?, wellFormed.ancestors_cons found around,
    List.find?_cons_of_neg (by simp [passes]), holder?]

/-- No scope nearer than the holder holds variables. -/
theorem le_of_holder? (wellFormed : table.WellFormed) {holder other : ScopeId}
    (held : table.holder? id = some holder) (around : other ∈ table.ancestors id)
    (holds : table.holdsVariables other = true) : other ≤ holder :=
  wellFormed.le_of_find?_ancestors held around holds

/-- A scope of the table declares a variable at a site. -/
def HasVariable (table : ScopeTable) (id : ScopeId) (name : String)
    (site : Site) : Prop :=
  site.kind.isVariable = true ∧
    ∃ scope, table.get? id = some scope ∧ (name, site) ∈ scope.declarations

theorem HasVariable.lt_length {name : String} {site : Site}
    (declared : table.HasVariable id name site) : id < table.scopes.length := by
  obtain ⟨_, scope, found, _⟩ := declared
  exact lt_length_of_get? found

theorem hasVariable_declare {other : ScopeId} {name added : String} {site addedSite : Site}
    (declared : (table.declare id added addedSite).HasVariable other name site) :
    table.HasVariable other name site ∨ other = id ∧ name = added ∧ site = addedSite := by
  obtain ⟨isVariable, scope, found, member⟩ := declared
  rw [get?_declare, Option.map_eq_some_iff] at found
  obtain ⟨old, oldFound, rfl⟩ := found
  by_cases here : id = other
  · rw [if_pos here, Scope.declare, List.mem_append, List.mem_singleton, Prod.mk.injEq] at member
    rcases member with isOld | ⟨sameName, sameSite⟩
    · exact Or.inl ⟨isVariable, old, oldFound, isOld⟩
    · exact Or.inr ⟨here.symm, sameName, sameSite⟩
  · rw [if_neg here] at member
    exact Or.inl ⟨isVariable, old, oldFound, member⟩

end ScopeTable

open ScopeTable

namespace Survey

/-- A sound survey inside a scope that holds variables. -/
structure Ready (survey : Survey) : Prop where
  sound : survey.Sound
  isHeld : (survey.table.holder? survey.current).isSome = true
  notEmpty : survey.stack ≠ []

variable {survey before after : Survey}

theorem Ready.way (ready : survey.Ready) :
    survey.table.ancestors survey.current = survey.stack := by
  cases stack : survey.stack with
  | nil => exact absurd stack ready.notEmpty
  | cons id rest =>
    have way := ready.sound.way stack
    simpa [current, stack] using way

theorem Ready.current_lt (ready : survey.Ready) : survey.current < survey.table.scopes.length := by
  cases stack : survey.stack with
  | nil => exact absurd stack ready.notEmpty
  | cons id rest =>
    have isHead : survey.stack.head? = some survey.current := by
      simp [current, stack]
    exact ready.sound.head_lt isHead

/-- The holder in which a survey stands is where `var` declarations go. -/
theorem Ready.holder?_eq (ready : survey.Ready) :
    survey.table.holder? survey.current = some survey.variableScope := by
  obtain ⟨holder, held⟩ := Option.isSome_iff_exists.1 ready.isHeld
  rw [held, variableScope]
  rw [holder?, ready.way] at held
  have same : (survey.stack.find? fun id =>
      (survey.table.get? id).any fun scope => scope.kind.holdsVariables) = some holder := held
  rw [same, Option.getD_some]

/-- A scope of the table is one that the opening opens. -/
structure IsOpened (table : ScopeTable) (id : ScopeId) (opening : Opening) :
    Prop where
  kind : ∃ scope, table.get? id = some scope ∧ scope.kind = openedKind opening
  record : ∀ shape, (functionParts opening).2 = some shape →
    { shape with scope := id } ∈ table.functions

/--
What a run of steps adds to a survey.  `lets` is what it may declare to the
holder around it, `keeps` what a scope that opens may have declared inside it.
-/
structure Effect (keeps : Opening → String → Site → Prop)
    (lets : String → Site → Prop) (before after : Survey) : Prop where
  stack : after.stack = before.stack
  extends_ : before.table.Extends after.table
  functions : ∀ function ∈ before.table.functions, function ∈ after.table.functions
  declared : ∀ {id name site}, after.table.HasVariable id name site →
    before.table.HasVariable id name site ∨
    after.table.holder? id = before.table.holder? before.current ∧
      lets name site ∨
    ∃ holder opening, after.table.holder? id = some holder ∧
      IsOpened after.table holder opening ∧ keeps opening name site

variable {keeps : Opening → String → Site → Prop}
  {lets more : String → Site → Prop}

theorem Effect.current_eq (effect : Effect keeps lets before after) :
    after.current = before.current := by
  rw [current, current, effect.stack]

theorem Effect.ready (effect : Effect keeps lets before after)
    (ready : before.Ready) (sound : after.Sound) : after.Ready where
  sound := sound
  isHeld := by
    rw [effect.current_eq, effect.extends_.holder?_eq ready.sound.formed
      sound.formed ready.current_lt]
    exact ready.isHeld
  notEmpty := effect.stack ▸ ready.notEmpty

variable {id : ScopeId} {opening : Opening} {steps : List Step} {name : String} {site : Site}

theorem Effect.isOpened (effect : Effect keeps lets before after)
    (opened : IsOpened before.table id opening) :
    IsOpened after.table id opening where
  kind := by
    obtain ⟨scope, found, isKind⟩ := opened.kind
    obtain ⟨kept, keptFound, _, sameKind⟩ := effect.extends_ id scope found
    exact ⟨kept, keptFound, sameKind.trans isKind⟩
  record := fun shape isShape => effect.functions _ (opened.record shape isShape)

/-- Steps that only note uses have no effect. -/
theorem Effect.of_same (scopes : after.table.scopes = before.table.scopes)
    (functions : after.table.functions = before.table.functions)
    (stack : after.stack = before.stack) :
    Effect keeps lets before after where
  stack := stack
  extends_ := by
    intro id scope found
    refine ⟨scope, ?_, rfl, rfl⟩
    rwa [get?, scopes]
  functions := by
    intro function member
    rwa [functions]
  declared := by
    intro id name site declared
    refine Or.inl ?_
    obtain ⟨isVariable, scope, found, member⟩ := declared
    rw [get?, scopes] at found
    exact ⟨isVariable, scope, found, member⟩

theorem Effect.mono (effect : Effect keeps lets before after)
    (weaker : ∀ name site, lets name site → more name site) :
    Effect keeps more before after where
  stack := effect.stack
  extends_ := effect.extends_
  functions := effect.functions
  declared := by
    intro id name site declared
    rcases effect.declared declared with old | ⟨held, allowed⟩ | inside
    · exact Or.inl old
    · exact Or.inr (Or.inl ⟨held, weaker name site allowed⟩)
    · exact Or.inr (Or.inr inside)

theorem Effect.trans {middle : Survey} (first : Effect keeps lets before middle)
    (second : Effect keeps lets middle after) (ready : before.Ready)
    (middleSound : middle.Sound) (afterSound : after.Sound) :
    Effect keeps lets before after where
  stack := second.stack.trans first.stack
  extends_ := first.extends_.trans second.extends_
  functions := by
    intro function member
    exact second.functions function (first.functions function member)
  declared := by
    intro id name site declared
    rcases second.declared declared with isMiddle | ⟨held, allowed⟩ | inside
    · have sameHolder := second.extends_.holder?_eq middleSound.formed
        afterSound.formed isMiddle.lt_length
      rcases first.declared isMiddle with
        isOld | ⟨held, allowed⟩ | ⟨holder, opening, held, opened, kept⟩
      · exact Or.inl isOld
      · exact Or.inr (Or.inl ⟨sameHolder.trans held, allowed⟩)
      · exact Or.inr (Or.inr ⟨holder, opening, sameHolder.trans held, second.isOpened opened, kept⟩)
    · refine Or.inr (Or.inl ⟨held.trans ?_, allowed⟩)
      rw [first.current_eq]
      exact first.extends_.holder?_eq ready.sound.formed middleSound.formed ready.current_lt
    · exact Or.inr (Or.inr inside)

/-- The effect of steps on every survey that is ready for them. -/
def Runs (keeps : Opening → String → Site → Prop)
    (lets : String → Site → Prop) (steps : List Step) : Prop :=
  ∀ survey : Survey, survey.Ready →
    Effect keeps lets survey (steps.foldl Survey.step survey)

theorem Runs.mono (runs : Runs keeps lets steps)
    (weaker : ∀ name site, lets name site → more name site) :
    Runs keeps more steps := by
  intro survey ready
  exact (runs survey ready).mono weaker

theorem Runs.append {first second : List Step} (firstRuns : Runs keeps lets first)
    (secondRuns : Runs keeps lets second) : Runs keeps lets (first ++ second) := by
  intro survey ready
  rw [List.foldl_append]
  have firstEffect := firstRuns survey ready
  have middleSound := ready.sound.run first
  have middleReady := firstEffect.ready ready middleSound
  exact firstEffect.trans (secondRuns _ middleReady) ready middleSound (middleSound.run second)

/-- A step that notes a use or a place. -/
theorem Runs.note {step : Step} (same : ∀ survey : Survey,
      (survey.step step).table.scopes = survey.table.scopes ∧
      (survey.step step).table.functions = survey.table.functions ∧
      (survey.step step).stack = survey.stack) :
    Runs keeps lets [step] := by
  intro survey _
  obtain ⟨scopes, functions, stack⟩ := same survey
  exact .of_same scopes functions stack

/-- A declaration in a scope whose holder is the one in which the survey stands. -/
theorem Effect.declareIn (ready : survey.Ready)
    (held : survey.table.holder? id = survey.table.holder? survey.current)
    (inside : id < survey.table.scopes.length)
    (allowed : site.kind.isVariable = true → lets name site) :
    Effect keeps lets survey (survey.declareIn id name site) where
  stack := rfl
  extends_ := extends_declare _ id name site
  functions := fun _ member => member
  declared := by
    intro other found foundSite declared
    have isVariable := declared.1
    rcases hasVariable_declare declared with isOld | ⟨rfl, rfl, rfl⟩
    · exact Or.inl isOld
    · refine Or.inr (Or.inl ⟨?_, allowed isVariable⟩)
      rw [← held]
      exact (extends_declare survey.table other found foundSite).holder?_eq
        ready.sound.formed (ready.sound.formed.declare other found foundSite) inside

theorem Runs.declare {reach : Reach} (allowed : site.kind.isVariable = true → lets name site) :
    Runs keeps lets [.declare reach name site] := by
  intro survey ready
  have atHolder := ready.holder?_eq
  obtain ⟨around, holds⟩ := holder?_spec atHolder
  have hoistedHolder : survey.table.holder? survey.variableScope =
      survey.table.holder? survey.current := by
    rw [ready.sound.formed.holder?_of_holds holds, atHolder]
  have hoistedInside := (ready.sound.formed.le_of_mem_ancestors around).2
  have here : Effect keeps lets survey (survey.declareIn survey.current name site) :=
    .declareIn ready rfl ready.current_lt allowed
  cases reach with
  | innermost => exact here
  | hoisted => exact .declareIn ready hoistedHolder hoistedInside allowed
  | both =>
    simp only [List.foldl_cons, List.foldl_nil, Survey.step]
    split
    · exact here
    · have hereSound := ready.sound.declareIn survey.current name site
      have grown := (extends_declare survey.table survey.current name site)
      have hereReady := here.ready ready hereSound
      refine here.trans (.declareIn hereReady ?_ ?_ allowed) ready hereSound
        (hereSound.declareIn _ name site)
      · rw [here.current_eq]
        rw [here.extends_.holder?_eq ready.sound.formed hereSound.formed
          ready.current_lt, here.extends_.holder?_eq ready.sound.formed
          hereSound.formed hoistedInside]
        exact hoistedHolder
      · exact Nat.lt_of_lt_of_le hoistedInside grown.length_le

/-! ## Scopes that open and close -/

theorem holdsVariables_openScope (opening : Opening) :
    (survey.openScope opening).table.holdsVariables survey.table.scopes.length =
      (openedKind opening).holdsVariables := by
  rw [holdsVariables, get?_openScope, Option.any_some, openedScope_holdsVariables]

theorem current_openScope (opening : Opening) :
    (survey.openScope opening).current = survey.table.scopes.length := by
  rw [current, openScope_stack, List.head?_cons, Option.getD_some]

/-- The holder inside a scope that has just opened. -/
theorem Ready.holder?_openScope (ready : survey.Ready) (opening : Opening) :
    (survey.openScope opening).table.holder? survey.table.scopes.length =
      if (openedKind opening).holdsVariables then some survey.table.scopes.length
      else survey.table.holder? survey.current := by
  have formed := (ready.sound.openScope opening).formed
  have holds : (survey.openScope opening).table.holdsVariables
      survey.table.scopes.length = (openedKind opening).holdsVariables :=
    holdsVariables_openScope opening
  cases kind : (openedKind opening).holdsVariables with
  | true => exact formed.holder?_of_holds (holds.trans kind)
  | false =>
    have around : (survey.openedScope opening).parent = some survey.current := by
      have isHead := ready.notEmpty
      cases stack : survey.stack with
      | nil => exact absurd stack isHead
      | cons id rest => simp [openedScope, current, stack]
    rw [formed.holder?_parent (get?_openScope opening) around (holds.trans kind)]
    exact (extends_openScope opening).holder?_eq ready.sound.formed formed ready.current_lt

theorem Ready.openScope (ready : survey.Ready) (opening : Opening) :
    (survey.openScope opening).Ready where
  sound := ready.sound.openScope opening
  isHeld := by
    rw [current_openScope, ready.holder?_openScope]
    split
    · rfl
    · exact ready.isHeld
  notEmpty := by simp [openScope_stack]

/-- A scope that opens declares no variables yet. -/
theorem hasVariable_openScope (declared : (survey.openScope opening).table.HasVariable id name site)
    :
    survey.table.HasVariable id name site := by
  obtain ⟨isVariable, scope, found, member⟩ := declared
  rw [openScope_table, get?_push] at found
  by_cases isNew : id = survey.table.scopes.length
  · rw [if_pos isNew, Option.some.injEq] at found
    rw [← found, openedScope] at member
    cases opening with
    | function isArrow given shape =>
      simp only [functionParts, List.mem_map, Prod.mk.injEq] at member
      obtain ⟨entry, _, _, rfl⟩ := member
      cases isVariable
    | text => cases member
    | block => cases member
    | staticBlock => cases member
  · rw [if_neg isNew] at found
    exact ⟨isVariable, scope, found, member⟩

/-- A scope that holds variables is not the scope of a class. -/
theorem isOpened_openScope (holds : (openedKind opening).holdsVariables = true) :
    IsOpened (survey.openScope opening).table survey.table.scopes.length opening where
  kind := by
    refine ⟨_, get?_openScope opening, openedScope_kind ?_⟩
    intro isBlock
    rw [isBlock] at holds
    cases holds
  record := by
    intro shape isShape
    rw [openScope_table, push, openedFunctions, isShape]
    exact List.mem_append_right _ List.mem_cons_self

/--
Steps inside a scope.  What they declare passes a scope that does not hold
variables and is kept by one that does.
-/
theorem Runs.inScope (runs : Runs keeps more steps)
    (passed : (openedKind opening).holdsVariables = false →
      ∀ name site, more name site → lets name site)
    (kept : (openedKind opening).holdsVariables = true →
      ∀ name site, more name site → keeps opening name site) :
    Runs keeps lets (Trace.inScope opening steps) := by
  intro survey ready
  have effect := runs _ (ready.openScope opening)
  simp only [Trace.inScope, List.foldl_append, List.cons_append, List.foldl_cons, List.foldl_nil]
  have opened : survey.step (.openScope opening) = survey.openScope opening := rfl
  rw [opened]
  generalize List.foldl Survey.step (survey.openScope opening) steps = after at *
  constructor
  · change after.stack.tail = survey.stack
    rw [effect.stack, openScope_stack, List.tail_cons]
  · exact (extends_openScope opening).trans effect.extends_
  · intro function member
    refine effect.functions function ?_
    rw [openScope_table]
    exact List.mem_append_left _ member
  · intro id name site declared
    rcases effect.declared declared with isOpened | ⟨held, allowed⟩ | inside
    · exact Or.inl (hasVariable_openScope isOpened)
    · rw [current_openScope, ready.holder?_openScope] at held
      cases kind : (openedKind opening).holdsVariables with
      | false =>
        rw [kind] at held
        exact Or.inr (Or.inl ⟨held, passed kind name site allowed⟩)
      | true =>
        rw [kind] at held
        exact Or.inr (Or.inr ⟨_, opening, held,
          effect.isOpened (isOpened_openScope kind), kept kind name site allowed⟩)
    · exact Or.inr (Or.inr inside)

/-! ## What nodes let out -/

theorem Runs.nil : Runs keeps lets [] :=
  fun _ _ => .of_same rfl rfl rfl

theorem Runs.enter (span : Span) : Runs keeps lets [.enter span] :=
  .note fun _ => ⟨rfl, rfl, rfl⟩

theorem Runs.flatMap {α : Type} {items : List α} {steps : α → List Step}
    (each : ∀ item ∈ items, Runs keeps lets (steps item)) :
    Runs keeps lets (items.flatMap steps) := by
  induction items with
  | nil => exact .nil
  | cons item rest ih =>
    rw [List.flatMap_cons]
    exact .append (each item List.mem_cons_self)
      (ih fun other member => each other (List.mem_cons_of_mem _ member))

theorem Runs.readAll {parts : List Trace.Part}
    (each : ∀ part ∈ parts, ∀ access, Runs keeps lets (part.2 access)) :
    Runs keeps lets (Trace.readAll parts) :=
  .flatMap fun part member => each part member .read

/-- Anything but a list of variables declares no variables itself. -/
theorem Runs.arrival (node : Node) (notVariables : ∀ keyword, node.kind ≠ .variableList keyword)
    (access : Access) : Runs keeps lets (node.arrival access) := by
  rw [← List.flatMap_singleton' (node.arrival access)]
  refine .flatMap fun step member => ?_
  rcases List.mem_append.1 member with isNote | isEntered
  · cases Node.isNotedBy_notes node access step isNote with
    | declare isFixed =>
      refine .declare fun isVariable => ?_
      rw [isFixed notVariables] at isVariable
      cases isVariable
    | _ => exact .note fun _ => ⟨rfl, rfl, rfl⟩
  · rw [Trace.enterNode] at isEntered
    split at isEntered
    · rw [List.mem_singleton.1 isEntered]
      exact .enter _
    · cases isEntered

/-- Blocks let out what the parts in them do. -/
theorem Runs.woven {opens : Opening → Prop} {parts : List Trace.Part}
    (woven : Trace.Woven opens parts steps) (blocks : ∀ opening, opens opening → opening = .block)
    (each : ∀ part ∈ parts, ∀ access, Runs keeps lets (part.2 access)) :
    Runs keeps lets steps := by
  induction woven with
  | nil => exact .nil
  | enter _ ih => exact (Runs.enter _).append (ih each)
  | part access _ ih =>
    exact (each _ List.mem_cons_self access).append
      (ih fun part member => each part (List.mem_cons_of_mem _ member))
  | scope opened _ _ ihInside ihOutside =>
    obtain rfl := blocks _ opened
    have inside := ihInside fun part member => each part (List.mem_append_left _ member)
    refine .append (inside.inScope (fun _ _ _ allowed => allowed) nofun)
      (ihOutside fun part member => each part (List.mem_append_right _ member))

end Survey

end Codemod
