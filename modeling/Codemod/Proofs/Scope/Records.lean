import Codemod.Parser.Program
import Codemod.Proofs.Scope.Hoisting
import Mathlib.Data.List.Forall2

/-!
# The record of a function

A table lists the functions of a tree, and whatever a function does is noted
in its scope or in a scope inside it.  `IsRecord` ties a record of the table to
the node of the tree in these terms, and `records_ofProgram` says that the
records of a table are those of the functions of the tree, in order.

A survey only ever adds to its table (`Grows`), so what has been noted stays
noted.  What remains is that a balanced run of steps, taken while a scope is
open, never leaves that scope.
-/

namespace Codemod

open Trace

namespace ScopeTable

/-- A scope of the table declares a name at a site. -/
def DeclaresIn (table : ScopeTable) (id : ScopeId) (name : String) (site : Site) :
    Prop :=
  ∃ scope, table.get? id = some scope ∧ (name, site) ∈ scope.declarations

variable {id : ScopeId}

theorem DeclaresIn.mem_sitesIn {table : ScopeTable} {name : String} {site : Site}
    (declared : table.DeclaresIn id name site) :
    site ∈ table.sitesIn id name := by
  obtain ⟨scope, found, member⟩ := declared
  rw [sitesIn, found]
  exact List.mem_map_of_mem (List.mem_filter.2 ⟨member, beq_self_eq_true name⟩)

/-- A table that has all that another one has and perhaps more. -/
structure Grows (older newer : ScopeTable) : Prop where
  scopes : older.Extends newer
  declarations : ∀ {id name site},
    older.DeclaresIn id name site → newer.DeclaresIn id name site
  references : older.references ⊆ newer.references
  members : older.members ⊆ newer.members
  superCalls : older.superCalls ⊆ newer.superCalls

variable {table older newer : ScopeTable}

theorem Grows.refl (table : ScopeTable) : table.Grows table where
  scopes := Extends.refl table
  declarations := id
  references := List.Subset.refl _
  members := List.Subset.refl _
  superCalls := List.Subset.refl _

theorem Grows.trans {middle : ScopeTable} (first : older.Grows middle)
    (second : middle.Grows newer) : older.Grows newer where
  scopes := first.scopes.trans second.scopes
  declarations := fun declared => second.declarations (first.declarations declared)
  references := List.Subset.trans first.references second.references
  members := List.Subset.trans first.members second.members
  superCalls := List.Subset.trans first.superCalls second.superCalls

theorem grows_declare (table : ScopeTable) (id : ScopeId) (name : String)
    (site : Site) : table.Grows (table.declare id name site) where
  scopes := extends_declare table id name site
  declarations := by
    rintro other found foundSite ⟨scope, isScope, member⟩
    refine ⟨_, by rw [get?_declare, isScope, Option.map_some], ?_⟩
    split
    · exact List.mem_append_left _ member
    · exact member
  references := List.Subset.refl _
  members := List.Subset.refl _
  superCalls := List.Subset.refl _

theorem declaresIn_declare (inside : id < table.scopes.length) (name : String) (site : Site) :
    (table.declare id name site).DeclaresIn id name site := by
  obtain ⟨scope, found⟩ := exists_get? inside
  refine ⟨scope.declare name site, ?_, ?_⟩
  · rw [get?_declare, found, Option.map_some, if_pos rfl]
  · exact List.mem_append_right _ List.mem_cons_self

theorem grows_push {scope : Scope} {functions : List FunctionRecord} :
    table.Grows (table.push scope functions) where
  scopes := extends_push
  declarations := by
    rintro id name site ⟨old, found, member⟩
    refine ⟨old, ?_, member⟩
    rw [get?_push, if_neg (Nat.ne_of_lt (lt_length_of_get? found)), found]
  references := List.Subset.refl _
  members := List.Subset.refl _
  superCalls := List.Subset.refl _

theorem lt_length_of_mem_ancestors {ancestor : ScopeId} (around : ancestor ∈ table.ancestors id) :
    id < table.scopes.length := by
  apply Nat.lt_of_not_le
  intro outside
  rw [ancestors_of_none (get?_eq_none_iff.2 outside)] at around
  cases around

theorem Grows.mem_ancestors (grows : older.Grows newer) (olderFormed : older.WellFormed)
    (newerFormed : newer.WellFormed) {ancestor : ScopeId} (around : ancestor ∈ older.ancestors id) :
    ancestor ∈ newer.ancestors id := by
  rwa [grows.scopes.ancestors_eq olderFormed newerFormed (lt_length_of_mem_ancestors around)]

/-! ## What is noted -/

/-- A scope inside another one declares a name at a site. -/
def DeclaresWithin (table : ScopeTable) (owner : ScopeId) (name : String)
    (site : Site) : Prop :=
  ∃ id, owner ∈ table.ancestors id ∧ table.DeclaresIn id name site

/-- What a step says is in the table, at a scope inside the owner. -/
def Notes (table : ScopeTable) (owner : ScopeId) : Step → Prop
  | .declare _ name site => table.DeclaresWithin owner name site
  | .openScope opening =>
    ∀ entry ∈ (Survey.functionParts opening).1,
      table.DeclaresWithin owner entry.1 entry.2
  | .reference name span access =>
    ∃ id, owner ∈ table.ancestors id ∧ ⟨name, span, id, access⟩ ∈ table.references
  | .member chain span access =>
    ∃ id, owner ∈ table.ancestors id ∧ ⟨chain, span, id, access⟩ ∈ table.members
  | .superCall span =>
    ∃ id, owner ∈ table.ancestors id ∧ ⟨span, id⟩ ∈ table.superCalls
  | .enter _ => True
  | .closeScope => True
  | .expectClass _ => True

theorem DeclaresWithin.mono {owner : ScopeId} {name : String} {site : Site}
    (declared : older.DeclaresWithin owner name site) (grows : older.Grows newer)
    (olderFormed : older.WellFormed) (newerFormed : newer.WellFormed) :
    newer.DeclaresWithin owner name site := by
  obtain ⟨id, around, isDeclared⟩ := declared
  exact ⟨id, grows.mem_ancestors olderFormed newerFormed around, grows.declarations isDeclared⟩

theorem Notes.mono {owner : ScopeId} {step : Step} (notes : older.Notes owner step)
    (grows : older.Grows newer) (olderFormed : older.WellFormed)
    (newerFormed : newer.WellFormed) : newer.Notes owner step := by
  cases step with
  | declare reach name site =>
    exact DeclaresWithin.mono notes grows olderFormed newerFormed
  | openScope opening =>
    intro entry member
    exact (notes entry member).mono grows olderFormed newerFormed
  | reference name span access =>
    obtain ⟨id, around, member⟩ := notes
    exact ⟨id, grows.mem_ancestors olderFormed newerFormed around, grows.references member⟩
  | member chain span access =>
    obtain ⟨id, around, member⟩ := notes
    exact ⟨id, grows.mem_ancestors olderFormed newerFormed around, grows.members member⟩
  | superCall span =>
    obtain ⟨id, around, member⟩ := notes
    exact ⟨id, grows.mem_ancestors olderFormed newerFormed around, grows.superCalls member⟩
  | enter span => trivial
  | closeScope => trivial
  | expectClass span => trivial

end ScopeTable

open ScopeTable

namespace Survey

variable {survey : Survey}

theorem grows_step (survey : Survey) (step : Step) :
    survey.table.Grows (survey.step step).table := by
  cases step with
  | openScope opening =>
    have opened : (survey.step (.openScope opening)).table = _ := openScope_table opening
    rw [opened]
    exact grows_push
  | declare reach name site =>
    exact step_declare_induction reach name site (Grows.refl _) fun _ id grows =>
      grows.trans (grows_declare _ id name site)
  | reference name span access =>
    exact ⟨Extends.refl _, id, List.subset_append_left _ _, List.Subset.refl _, List.Subset.refl _⟩
  | member chain span access =>
    exact ⟨Extends.refl _, id, List.Subset.refl _, List.subset_append_left _ _, List.Subset.refl _⟩
  | superCall span =>
    exact ⟨Extends.refl _, id, List.Subset.refl _, List.Subset.refl _, List.subset_append_left _ _⟩
  | enter span => exact Grows.refl _
  | closeScope => exact Grows.refl _
  | expectClass span => exact Grows.refl _

theorem grows_run (survey : Survey) (steps : List Step) :
    survey.table.Grows (steps.foldl Survey.step survey).table := by
  induction steps generalizing survey with
  | nil => exact Grows.refl _
  | cons step rest ih =>
    exact (grows_step survey step).trans (ih (survey.step step))

/-- What has been noted stays noted. -/
theorem Sound.notes_run (sound : survey.Sound) {owner : ScopeId} {step : Step}
    (notes : survey.table.Notes owner step) (steps : List Step) :
    (steps.foldl Survey.step survey).table.Notes owner step :=
  notes.mono (grows_run survey steps) sound.formed (sound.run steps).formed

theorem stack_step_of_plain {step : Step} (plain : step.isPlain = true) :
    (survey.step step).stack = survey.stack := by
  cases step with
  | openScope opening => cases plain
  | closeScope => cases plain
  | declare reach name site => exact step_declare_induction reach name site rfl fun _ _ => id
  | _ => rfl

/-- Balanced steps leave the open scopes as they are. -/
theorem stack_run_of_balanced {steps : List Step} (balanced : Balanced steps)
    (survey : Survey) : (steps.foldl Survey.step survey).stack = survey.stack := by
  induction balanced generalizing survey with
  | nil => rfl
  | step plain _ ih =>
    rw [List.foldl_cons, ih, stack_step_of_plain plain]
  | @scope opening inner outer _ _ ihInside ihOutside =>
    rw [List.foldl_append, ihOutside, inScope, List.foldl_append, List.foldl_cons]
    change (List.foldl Survey.step (survey.openScope opening) inner).stack.tail = _
    rw [ihInside, openScope_stack, List.tail_cons]

/-- A scope that holds variables is open. -/
structure StandsIn (survey : Survey) (owner : ScopeId) : Prop where
  sound : survey.Sound
  isOpen : owner ∈ survey.stack
  holds : survey.table.holdsVariables owner = true

variable {owner : ScopeId}

theorem StandsIn.ready (stands : survey.StandsIn owner) : survey.Ready := by
  obtain ⟨id, rest, stack⟩ := List.exists_cons_of_ne_nil (List.ne_nil_of_mem stands.isOpen)
  have way := stands.sound.way stack
  have isCurrent : survey.current = id := by simp [current, stack]
  refine ⟨stands.sound, ?_, by simp [stack]⟩
  rw [isCurrent, holder?, way]
  exact List.find?_isSome.2 ⟨owner, stands.isOpen, stands.holds⟩

theorem StandsIn.mem_ancestors_current (stands : survey.StandsIn owner) :
    owner ∈ survey.table.ancestors survey.current := by
  rw [stands.ready.way]
  exact stands.isOpen

/-- A declaration that moves outwards does not leave a scope that holds variables. -/
theorem StandsIn.mem_ancestors_variableScope (stands : survey.StandsIn owner) :
    owner ∈ survey.table.ancestors survey.variableScope := by
  have held := stands.ready.holder?_eq
  have formed := stands.sound.formed
  have around := (holder?_spec held).1
  have notNearer := le_of_holder? formed held stands.mem_ancestors_current stands.holds
  rcases formed.ancestors_linear stands.mem_ancestors_current around with inner | outer
  · exact inner
  · have same := Nat.le_antisymm notNearer (formed.le_of_mem_ancestors outer).1
    rw [← same]
    exact formed.mem_ancestors_self (formed.le_of_mem_ancestors stands.mem_ancestors_current).2

theorem declaresWithin_declareIn {id : ScopeId}
    (around : owner ∈ survey.table.ancestors id) (name : String) (site : Site) :
    (survey.declareIn id name site).table.DeclaresWithin owner name site := by
  refine ⟨id, ?_, declaresIn_declare (lt_length_of_mem_ancestors around) name site⟩
  rw [Survey.declareIn, ancestors_declare]
  exact around

/-- A step is noted in the innermost scope or in one at which variables stop. -/
theorem StandsIn.notes_step (stands : survey.StandsIn owner) (step : Step) :
    (survey.step step).table.Notes owner step := by
  have here := stands.mem_ancestors_current
  have stillHere := (grows_step survey step).mem_ancestors stands.sound.formed
    (stands.sound.step step).formed here
  cases step with
  | declare reach name site =>
    cases reach with
    | innermost => exact declaresWithin_declareIn here name site
    | hoisted => exact declaresWithin_declareIn stands.mem_ancestors_variableScope name site
    | both =>
      have inner := declaresWithin_declareIn here name site
      have sound := stands.sound.declareIn survey.current name site
      simp only [Survey.step, Notes]
      split
      · exact inner
      · exact inner.mono (grows_declare _ _ name site) sound.formed
          (sound.formed.declare _ name site)
  | openScope opening =>
    intro entry member
    have sound := stands.sound.openScope opening
    refine ⟨survey.table.scopes.length, ?_, ?_⟩
    · change owner ∈ (survey.openScope opening).table.ancestors _
      rw [sound.way (openScope_stack opening), openScope_stack]
      exact List.mem_cons_of_mem _ stands.isOpen
    · exact ⟨_, get?_openScope opening, member⟩
  | reference name span access =>
    exact ⟨survey.current, stillHere, List.mem_append_right _ List.mem_cons_self⟩
  | member chain span access =>
    exact ⟨survey.current, stillHere, List.mem_append_right _ List.mem_cons_self⟩
  | superCall span =>
    exact ⟨survey.current, stillHere, List.mem_append_right _ List.mem_cons_self⟩
  | enter span => trivial
  | closeScope => trivial
  | expectClass span => trivial

theorem StandsIn.run (stands : survey.StandsIn owner) (steps : List Step)
    (stays : owner ∈ (steps.foldl Survey.step survey).stack) :
    (steps.foldl Survey.step survey).StandsIn owner where
  sound := stands.sound.run steps
  isOpen := stays
  holds := by
    have inside := (stands.sound.formed.le_of_mem_ancestors stands.mem_ancestors_current).2
    rw [(grows_run survey steps).scopes.holdsVariables_eq inside]
    exact stands.holds

/-- Balanced steps are noted in the scope that is open while they are taken. -/
theorem StandsIn.notes_run {steps : List Step} (balanced : Balanced steps)
    (stands : survey.StandsIn owner) :
    ∀ step ∈ steps, (steps.foldl Survey.step survey).table.Notes owner step := by
  induction balanced generalizing survey with
  | nil => exact List.forall_mem_nil _
  | @step step steps plain _ ih =>
    have stays : (survey.step step).StandsIn owner := by
      apply stands.run [step]
      simp [stack_step_of_plain plain, stands.isOpen]
    intro other member
    rcases List.mem_cons.1 member with rfl | isLater
    · exact stays.sound.notes_run (stands.notes_step other) steps
    · exact ih stays other isLater
  | @scope opening inner outer within _ ihInside ihOutside =>
    have opened : (survey.openScope opening).StandsIn owner := by
      apply stands.run [.openScope opening]
      simp [Survey.step, openScope_stack, stands.isOpen]
    have closed := stack_run_of_balanced (within.inScope opening) survey
    have stays := stands.run _ (closed ▸ stands.isOpen)
    rw [List.foldl_append]
    intro other member
    rcases List.mem_append.1 member with isInside | isOutside
    · refine stays.sound.notes_run ?_ outer
      simp only [inScope, List.cons_append, List.mem_cons, List.mem_append,
        List.not_mem_nil, or_false] at isInside
      simp only [inScope, List.foldl_append, List.foldl_cons, List.cons_append, List.foldl_nil]
      rcases isInside with rfl | isInner | rfl
      · exact opened.sound.notes_run (stands.notes_step (.openScope opening)) inner
      · exact ihInside opened other isInner
      · trivial
    · exact ihOutside stays other isOutside

end Survey

/-! ## Records -/

namespace Node

/-- The steps of a function before its scope opens. -/
def outerSteps (node : Node) : List Step :=
  (node.trace .read).takeWhile Step.isPlain

/-- The steps of a function from the opening of its scope on. -/
def innerSteps (node : Node) : List Step :=
  (node.trace .read).dropWhile Step.isPlain

variable {node : Node}

theorem outerSteps_eq {outer inside : List Step} {opening : Opening}
    (trace : ∀ access, node.trace access = outer ++ inScope opening inside)
    (plain : ∀ step ∈ outer, step.isPlain = true) : node.outerSteps = outer := by
  rw [outerSteps, trace, List.takeWhile_append_of_pos plain]
  simp [inScope, Step.isPlain]

theorem innerSteps_eq {outer inside : List Step} {opening : Opening}
    (trace : ∀ access, node.trace access = outer ++ inScope opening inside)
    (plain : ∀ step ∈ outer, step.isPlain = true) :
    node.innerSteps = inScope opening inside := by
  rw [innerSteps, trace, List.dropWhile_append_of_pos plain]
  simp [inScope, Step.isPlain]

/-- What stands in a function, and is not the function, is done in its scope. -/
theorem exists_trace_subset_innerSteps {inner : Node} (isFunction : node.kind.isFunction = true)
    (member : inner ∈ node.nodes) :
    inner = node ∨ ∃ access, inner.trace access ⊆ node.innerSteps := by
  obtain ⟨kind, span, children⟩ := node
  rw [kind_mk] at isFunction
  have notReference : ∀ name, kind ≠ .reference name := by
    rintro name rfl
    cases isFunction
  rw [nodes_mk notReference, List.mem_cons] at member
  rcases member with isSame | isDeeper
  · exact Or.inl isSame
  · obtain ⟨child, isChild, isInner⟩ := List.mem_flatMap.1 isDeeper
    obtain ⟨outer, _, _, inside, trace, plain, woven, _⟩ :=
      exists_trace_eq_inScope isFunction span children
    obtain ⟨used, subset⟩ := exists_trace_subset_of_children woven isChild
    obtain ⟨access, innerSubset⟩ := exists_trace_subset isInner used
    refine Or.inr ⟨access, fun step isStep => ?_⟩
    rw [innerSteps_eq trace plain]
    simp [inScope, subset (innerSubset isStep)]

theorem functions_eq {kind : Kind} (notReference : ∀ name, kind ≠ .reference name)
    (span : Span) (children : List Node) :
    (mk kind span children).functions =
      ((mk kind span children).shape?.toList.map fun _ => mk kind span children) ++
        children.flatMap functions := by
  rw [functions, nodes_mk notReference, List.filter_cons, List.filter_flatMap, ← isSome_shape?]
  cases (mk kind span children).shape? <;> rfl

theorem functions_reference (name : String) (span : Span) (children : List Node) :
    (mk (.reference name) span children).functions = [] := by
  rw [functions, nodes_reference]
  rfl

end Node

/-- The table lists a function of the tree and notes what the function does. -/
structure ScopeTable.IsRecord (table : ScopeTable) (function : FunctionRecord)
    (node : Node) : Prop where
  shape : node.shape? = some function.toFunctionShape
  kind : ∃ scope, table.get? function.scope = some scope ∧
    scope.kind = if function.isArrow then .arrow else .function
  inner : ∀ step ∈ node.innerSteps, table.Notes function.scope step
  /-- The name of a declared function is known around it. -/
  outer : ∀ {name site}, .declare .both name site ∈ node.outerSteps →
    ∃ scope parent, table.get? function.scope = some scope ∧
      scope.parent = some parent ∧ table.DeclaresIn parent name site

variable {function : FunctionRecord} {node : Node}

theorem ScopeTable.IsRecord.isFunction {table : ScopeTable} (record : table.IsRecord function node)
    : node.kind.isFunction = true :=
  Node.isFunction_of_shape? record.shape

/-- What stands in a recorded function is noted in the scope of the function. -/
theorem ScopeTable.IsRecord.notes {table : ScopeTable} {inner : Node}
    (record : table.IsRecord function node) (member : inner ∈ node.nodes) :
    inner = node ∨ ∃ access, ∀ step ∈ inner.trace access, table.Notes function.scope step := by
  rcases Node.exists_trace_subset_innerSteps record.isFunction member with
    isSame | ⟨access, subset⟩
  · exact Or.inl isSame
  · exact Or.inr ⟨access, fun step isStep => record.inner step (subset isStep)⟩

theorem ScopeTable.IsRecord.mono {older newer : ScopeTable} (record : older.IsRecord function node)
    (grows : older.Grows newer) (olderFormed : older.WellFormed) (newerFormed : newer.WellFormed) :
    newer.IsRecord function node where
  shape := record.shape
  kind := by
    obtain ⟨scope, found, isKind⟩ := record.kind
    obtain ⟨kept, keptFound, _, sameKind⟩ := grows.scopes _ _ found
    exact ⟨kept, keptFound, sameKind.trans isKind⟩
  inner := fun step member =>
    (record.inner step member).mono grows olderFormed newerFormed
  outer := by
    intro name site member
    obtain ⟨scope, parent, found, around, declared⟩ := record.outer member
    obtain ⟨kept, keptFound, sameParent, _⟩ := grows.scopes _ _ found
    exact ⟨kept, parent, keptFound, sameParent.trans around, grows.declarations declared⟩

namespace Survey

variable {survey : Survey}

theorem functions_openScope (opening : Opening) : (survey.openScope opening).table.functions =
      survey.table.functions ++ survey.openedFunctions opening := by
  rw [openScope_table]
  rfl

variable {opening : Opening} {steps : List Step}

theorem openedFunctions_of_bare (bare : IsBare opening) : survey.openedFunctions opening = [] := by
  cases opening with
  | function isArrow name shape => exact absurd rfl (bare isArrow name shape)
  | _ => rfl

/-- Steps add the records of functions, in order, to every table that is being built. -/
def Records (steps : List Step) (nodes : List Node) : Prop :=
  ∀ survey : Survey, survey.Sound → survey.stack ≠ [] →
    ∃ added, (steps.foldl Survey.step survey).table.functions =
        survey.table.functions ++ added ∧
      List.Forall₂ (steps.foldl Survey.step survey).table.IsRecord added nodes

theorem Records.of_plain (plain : ∀ step ∈ steps, step.isPlain = true) : Records steps [] := by
  intro survey sound notEmpty
  refine ⟨[], ?_, .nil⟩
  rw [List.append_nil]
  induction steps generalizing survey with
  | nil => rfl
  | cons step rest ih =>
    have isPlain := plain step List.mem_cons_self
    rw [List.foldl_cons, ih, functions_step_of_plain isPlain]
    · intro other member
      exact plain other (List.mem_cons_of_mem _ member)
    · exact sound.step step
    · rw [stack_step_of_plain isPlain]
      exact notEmpty

theorem Records.append {first second : List Step} {nodes more : List Node}
    (firstRecords : Records first nodes) (balanced : Balanced first)
    (secondRecords : Records second more) :
    Records (first ++ second) (nodes ++ more) := by
  intro survey sound notEmpty
  have middleSound := sound.run first
  have middleStack := stack_run_of_balanced balanced survey
  obtain ⟨old, isOld, oldRecords⟩ := firstRecords survey sound notEmpty
  obtain ⟨new, isNew, newRecords⟩ := secondRecords _ middleSound (middleStack ▸ notEmpty)
  rw [List.foldl_append]
  refine ⟨old ++ new, ?_, ?_⟩
  · rw [isNew, isOld, List.append_assoc]
  · apply List.rel_append _ newRecords
    refine oldRecords.imp fun function node record => ?_
    exact record.mono (grows_run _ second) middleSound.formed (middleSound.run second).formed

theorem Records.inScope (bare : IsBare opening) {nodes : List Node}
    (records : Records steps nodes) :
    Records (inScope opening steps) nodes := by
  intro survey sound notEmpty
  obtain ⟨added, isAdded, each⟩ := records (survey.openScope opening)
    (sound.openScope opening) (by simp [openScope_stack])
  rw [functions_openScope, openedFunctions_of_bare bare, List.append_nil] at isAdded
  simp only [Trace.inScope, List.foldl_append, List.foldl_cons, List.cons_append, List.foldl_nil]
  exact ⟨added, isAdded, each⟩

variable {opens : Opening → Prop}

/-- A weave adds the records of the functions in its parts. -/
theorem records_of_woven (bare : ∀ opening, opens opening → IsBare opening) {parts : List Part}
    (woven : Woven opens parts steps)
    (each : ∀ part ∈ parts, ∀ access, Balanced (part.2 access) ∧
      Records (part.2 access) part.1.functions) :
    Records steps (parts.flatMap fun part => part.1.functions) := by
  induction woven with
  | nil => exact .of_plain (List.forall_mem_nil _)
  | @enter span parts steps _ ih =>
    have own : ∀ other ∈ [Step.enter span], other.isPlain = true := by simp [Step.isPlain]
    exact (Records.of_plain own).append (.step rfl .nil) (ih each)
  | @part part parts steps access _ ih =>
    obtain ⟨balanced, records⟩ := each part List.mem_cons_self access
    refine records.append balanced (ih fun other member => ?_)
    exact each other (List.mem_cons_of_mem _ member)
  | @scope opening inside outside inner outer opened within _ ihInside
      ihOutside =>
      have insideEach : ∀ part ∈ inside, _ := fun part member =>
        each part (List.mem_append_left outside member)
      have outsideEach : ∀ part ∈ outside, _ := fun part member =>
        each part (List.mem_append_right inside member)
      have balanced : Balanced inner := within.balanced fun part member access =>
        (insideEach part member access).1
      rw [List.flatMap_append]
      exact ((ihInside insideEach).inScope (bare _ opened)).append
        (balanced.inScope opening) (ihOutside outsideEach)

theorem records_of_children (bare : ∀ opening, opens opening → IsBare opening)
    {children : List Node} (woven : Woven opens (Node.parts children) steps)
    (each : ∀ child ∈ children, ∀ access, Records (child.trace access) child.functions) :
    Records steps (children.flatMap Node.functions) := by
  have records := records_of_woven bare woven fun part member access => by
    obtain ⟨child, isChild, rfl⟩ := List.mem_map.1 member
    exact ⟨child.balanced_trace access, each child isChild access⟩
  rwa [Node.parts, List.flatMap_map] at records

/-- What stands in a scope that holds variables is noted in that scope. -/
theorem Sound.notes_inScope (sound : survey.Sound)
    (holds : (openedKind opening).holdsVariables = true) {inside : List Step}
    (balanced : Balanced inside) :
    ∀ step ∈ Trace.inScope opening inside,
      ((Trace.inScope opening inside).foldl Survey.step survey).table.Notes
        survey.table.scopes.length step := by
  have stands : (survey.openScope opening).StandsIn survey.table.scopes.length := by
    refine ⟨sound.openScope opening, ?_, ?_⟩
    · rw [openScope_stack]
      exact List.mem_cons_self
    · rw [holdsVariables_openScope, holds]
  have own : (survey.openScope opening).table.Notes survey.table.scopes.length
      (.openScope opening) := by
    intro entry member
    refine ⟨_, ?_, _, get?_openScope opening, member⟩
    rw [stands.sound.way (openScope_stack opening)]
    exact stands.isOpen
  intro step member
  simp only [Trace.inScope, List.cons_append, List.mem_cons, List.mem_append,
    List.not_mem_nil, or_false] at member
  simp only [Trace.inScope, List.foldl_append, List.foldl_cons, List.cons_append, List.foldl_nil]
  rcases member with rfl | isInside | rfl
  · exact stands.sound.notes_run own inside
  · exact stands.notes_run balanced step isInside
  · trivial

theorem Sound.current_lt (sound : survey.Sound) (notEmpty : survey.stack ≠ []) :
    survey.current < survey.table.scopes.length := by
  obtain ⟨id, rest, stack⟩ := List.exists_cons_of_ne_nil notEmpty
  apply sound.head_lt
  simp [current, stack]

/-- What plain steps declare around them is declared in the innermost scope. -/
theorem Sound.declaresIn_run (sound : survey.Sound) (notEmpty : survey.stack ≠ [])
    (plain : ∀ step ∈ steps, step.isPlain = true) {name : String} {site : Site}
    (member : .declare .both name site ∈ steps) :
    (steps.foldl Survey.step survey).table.DeclaresIn survey.current name site := by
  induction steps generalizing survey with
  | nil => cases member
  | cons step rest ih =>
    have stack : (survey.step step).stack = survey.stack :=
      stack_step_of_plain (plain step List.mem_cons_self)
    rcases List.mem_cons.1 member with rfl | isLater
    · apply (grows_run _ rest).declarations
      have inner := declaresIn_declare (sound.current_lt notEmpty) name site
      simp only [Survey.step]
      split
      · exact inner
      · exact (grows_declare _ _ name site).declarations inner
    · have sameScope : (survey.step step).current = survey.current := by
        rw [current, current, stack]
      rw [← sameScope]
      apply ih (sound.step step) (stack ▸ notEmpty) _ isLater
      intro other isOther
      exact plain other (List.mem_cons_of_mem _ isOther)

theorem stack_run_of_plain (plain : ∀ step ∈ steps, step.isPlain = true) (survey : Survey) :
    (steps.foldl Survey.step survey).stack = survey.stack :=
  stack_run_of_balanced (balanced_of_plain plain) survey

/-- The record that is made when the scope of a function opens. -/
theorem Sound.isRecord_run (sound : survey.Sound) (notEmpty : survey.stack ≠ [])
    {node : Node} {outer inside : List Step} {name : Option (String × Span)}
    {shape : FunctionShape} (isShape : node.shape? = some shape)
    (trace : ∀ access, node.trace access =
      outer ++ Trace.inScope (.function shape.isArrow name (some shape)) inside)
    (plain : ∀ step ∈ outer, step.isPlain = true) (balanced : Balanced inside)
    (access : Access) :
    ((node.trace access).foldl Survey.step survey).table.IsRecord
      ⟨shape, (outer.foldl Survey.step survey).table.scopes.length⟩ node := by
  have enteredSound := sound.run outer
  have enteredStack := stack_run_of_plain plain survey
  rw [trace access, List.foldl_append]
  have declared : ∀ {name site}, .declare .both name site ∈ outer →
      (outer.foldl Survey.step survey).table.DeclaresIn survey.current name site :=
    sound.declaresIn_run notEmpty plain
  generalize outer.foldl Survey.step survey = entered at *
  have opened : (entered.openScope (.function shape.isArrow name (some shape))).table.get?
      entered.table.scopes.length = some _ := get?_openScope _
  have grows := grows_run
    (entered.openScope (.function shape.isArrow name (some shape))) (inside ++ [.closeScope])
  obtain ⟨kept, keptFound, sameParent, sameKind⟩ := grows.scopes _ _ opened
  constructor
  · exact isShape
  · refine ⟨kept, keptFound, sameKind.trans ?_⟩
    cases isArrow : shape.isArrow with
    | true => exact openedScope_kind nofun
    | false => exact openedScope_kind nofun
  · rw [Node.innerSteps_eq trace plain]
    refine enteredSound.notes_inScope ?_ balanced
    cases shape.isArrow <;> rfl
  · intro name site member
    rw [Node.outerSteps_eq trace plain] at member
    refine ⟨kept, survey.current, keptFound, sameParent.trans ?_, ?_⟩
    · obtain ⟨id, rest, isStack⟩ := List.exists_cons_of_ne_nil notEmpty
      simp [openedScope, enteredStack, current, isStack]
    · exact (grows_run _ _).declarations (declared member)

/-- A function adds its own record before those of the functions inside it. -/
theorem records_function {kind : Kind} (isFunction : kind.isFunction = true)
    (span : Span) (children : List Node)
    (each : ∀ child ∈ children, ∀ access,
      Records (child.trace access) child.functions) (access : Access) :
    Records ((Node.mk kind span children).trace access) (Node.mk kind span children).functions := by
  have notReference : ∀ name, kind ≠ .reference name := by
    rintro name rfl
    cases isFunction
  obtain ⟨outer, isArrow, name, inside, trace, plain, woven, sameArrow⟩ :=
    Node.exists_trace_eq_inScope isFunction span children
  have balanced := Node.balanced_of_children woven
  intro survey sound notEmpty
  obtain ⟨_, before, isNothing⟩ := Records.of_plain plain survey sound notEmpty
  cases isNothing
  let opened := (outer.foldl Survey.step survey).openScope
    (.function isArrow name (Node.mk kind span children).shape?)
  obtain ⟨added, isAdded, records⟩ := records_of_children (fun _ => id) woven each opened
    ((sound.run outer).openScope _) (by simp [opened, openScope_stack])
  have isRun : (((Node.mk kind span children).trace access).foldl Survey.step survey).table =
      (inside.foldl Survey.step opened).table := by
    rw [trace access]
    simp [Trace.inScope, List.foldl_append, Survey.step, opened]
  rw [Node.functions_eq notReference]
  refine ⟨openedFunctions (outer.foldl Survey.step survey)
    (.function isArrow name (Node.mk kind span children).shape?) ++ added, ?_, ?_⟩
  · rw [isRun, isAdded, functions_openScope, before, List.append_nil, List.append_assoc]
  · apply List.rel_append
    · cases isShape : (Node.mk kind span children).shape? with
      | none => exact .nil
      | some shape =>
        rw [isShape, ← sameArrow shape isShape] at trace
        exact .cons (sound.isRecord_run notEmpty isShape trace plain balanced access) .nil
    · rw [isRun]
      exact records

theorem records_trace (node : Node) (access : Access) :
    Records (node.trace access) node.functions := by
  induction node using Node.induction generalizing access with
  | step kind span children ih =>
    cases isFunction : kind.isFunction with
    | true => exact records_function isFunction span children ih access
    | false =>
      rcases kind.reference_cases with ⟨name, rfl⟩ | notReference
      · rw [Node.functions_reference, Node.trace_reference]
        refine .of_plain fun step member => ?_
        rw [List.mem_singleton.1 member]
        rfl
      · obtain ⟨rest, trace, woven⟩ := Node.exists_woven notReference span children access
        have plain := Node.isPlain_arrival (.mk kind span children) access
        have bare := Node.isBare_of_opening? (.mk kind span children) isFunction
        rw [trace, Node.functions_eq notReference, Node.shape?_eq_none span children isFunction]
        exact (Records.of_plain plain).append (balanced_of_plain plain)
          (records_of_children bare woven ih)

/-- The survey in which the scope of the whole text has just opened. -/
def begun (span : Span) : Survey :=
  (start.step (.enter span)).openScope .text

theorem sound_begun (span : Span) : (begun span).Sound :=
  (sound_start.step _).openScope .text

end Survey

/-- Whatever is read from a text is a program. -/
theorem kind_of_parseProgram {dialect : Dialect} {source : List Char} {program : Program}
    (parsed : parseProgram dialect source = some program) : program.root.kind = .program := by
  simp only [parseProgram, Option.bind_eq_bind, Option.bind_eq_some_iff] at parsed
  obtain ⟨first, _, ⟨statements, last⟩, _, isRead⟩ := parsed
  split at isRead
  · cases isRead
    rfl
  · cases isRead

namespace ScopeTable

theorem ofProgram_mk (span : Span) (children : List Node) : ofProgram (.mk .program span children) =
      ((readAll (Node.parts children)).foldl Survey.step (Survey.begun span)).table := by
  rw [ofProgram_eq, Node.trace_program, ofSteps]
  simp [inScope, List.foldl_append, Survey.step, Survey.begun]

variable {root : Node} {function : FunctionRecord}

/-- The functions of a table are the functions of the tree that have bodies, in order. -/
theorem records_ofProgram (isText : root.kind = .program) :
    List.Forall₂ (ofProgram root).IsRecord (ofProgram root).functions root.functions := by
  obtain ⟨kind, span, children⟩ := root
  obtain rfl : kind = .program := isText
  obtain ⟨added, isAdded, records⟩ := Survey.records_of_children (fun _ => id)
    (woven_readAll (Node.parts children)) (fun child _ => Survey.records_trace child)
    (Survey.begun span) (Survey.sound_begun span) nofun
  have isOwn : (Node.mk .program span children).functions = children.flatMap Node.functions := by
    rw [Node.functions_eq (by simp), Node.shape?_eq_none span children rfl]
    rfl
  rw [ofProgram_mk, isAdded, isOwn]
  exact records

/-- A function of a table and a node of the tree that stand at the same place. -/
def Lists (root : Node) (function : FunctionRecord) (node : Node) : Prop :=
  ∃ index : Nat, (ofProgram root).functions[index]? = some function ∧
    root.functions[index]? = some node

theorem Lists.mem {node : Node} (lists : Lists root function node) : node ∈ root.functions := by
  obtain ⟨index, _, isNode⟩ := lists
  exact List.mem_of_getElem? isNode

theorem Lists.isRecord (isText : root.kind = .program) {node : Node}
    (lists : Lists root function node) :
    (ofProgram root).IsRecord function node := by
  obtain ⟨index, isFunction, isNode⟩ := lists
  obtain ⟨inside, rfl⟩ := List.getElem?_eq_some_iff.1 isFunction
  obtain ⟨nodeInside, rfl⟩ := List.getElem?_eq_some_iff.1 isNode
  exact (records_ofProgram isText).get inside nodeInside

/-- Every function of a table is the record of a node. -/
theorem exists_isRecord (isText : root.kind = .program)
    (member : function ∈ (ofProgram root).functions) :
    ∃ node, Lists root function node ∧ (ofProgram root).IsRecord function node := by
  have records := records_ofProgram isText
  obtain ⟨index, inside, rfl⟩ := List.getElem_of_mem member
  have nodeInside := records.length_eq ▸ inside
  exact ⟨_, ⟨index, List.getElem?_eq_getElem inside, List.getElem?_eq_getElem nodeInside⟩,
    records.get inside nodeInside⟩

end ScopeTable

end Codemod
