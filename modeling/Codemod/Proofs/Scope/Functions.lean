import Codemod.Proofs.Scope.Survey
import Codemod.Proofs.Scope.Weaving

/-!
# The functions of a table

A table lists the functions that have bodies, each with its scope and with
what is known of its body.  Their scopes are scopes of functions, and a
function whose body is an expression has no statements to speak of.
-/

namespace Codemod

open ScopeTable

namespace Survey

variable {survey : Survey}

theorem extends_openScope (opening : Opening) :
    survey.table.Extends (survey.openScope opening).table := by
  rw [openScope_table]
  exact extends_push

theorem get?_openScope (opening : Opening) :
    (survey.openScope opening).table.get? survey.table.scopes.length =
      some (survey.openedScope opening) := by
  rw [openScope_table, get?_push, if_pos rfl]

/-- Every step keeps the scopes that there are. -/
theorem extends_step (survey : Survey) (step : Step) :
    survey.table.Extends (survey.step step).table := by
  cases step with
  | openScope opening => exact extends_openScope opening
  | declare reach name site =>
    exact step_declare_induction reach name site (Extends.refl _) fun _ id grows =>
      grows.trans (extends_declare _ id name site)
  | _ => exact Extends.refl _

theorem functions_step_of_plain {step : Step} (plain : step.isPlain = true) :
    (survey.step step).table.functions = survey.table.functions := by
  cases step with
  | openScope opening => cases plain
  | declare reach name site => exact step_declare_induction reach name site rfl fun _ _ => id
  | _ => rfl

theorem functions_step {step : Step} {function : FunctionRecord}
    (member : function ∈ (survey.step step).table.functions) :
    function ∈ survey.table.functions ∨ ∃ opening, step = .openScope opening ∧
        function ∈ survey.openedFunctions opening := by
  cases step with
  | openScope opening =>
    simp only [Survey.step, openScope_table, push, List.mem_append] at member
    rcases member with isOld | isNew
    · exact Or.inl isOld
    · exact Or.inr ⟨opening, rfl, isNew⟩
  | declare reach name site =>
    rw [functions_step_of_plain rfl] at member
    exact Or.inl member
  | _ => exact Or.inl member

/-- Whether a scope is that of a function. -/
def IsFunctionScope (table : ScopeTable) (id : ScopeId) : Prop :=
  ∃ scope, table.get? id = some scope ∧
    (scope.kind = .function ∨ scope.kind = .arrow)

/-- The scopes of all functions are scopes of functions. -/
def HasFunctionScopes (survey : Survey) : Prop :=
  ∀ function ∈ survey.table.functions, IsFunctionScope survey.table function.scope

theorem HasFunctionScopes.step (known : survey.HasFunctionScopes) (step : Step) :
    (survey.step step).HasFunctionScopes := by
  intro function member
  rcases functions_step member with isOld | ⟨opening, rfl, isNew⟩
  · obtain ⟨scope, found, isFunction⟩ := known function isOld
    obtain ⟨kept, keptFound, _, sameKind⟩ := extends_step survey step _ _ found
    exact ⟨kept, keptFound, sameKind ▸ isFunction⟩
  · rw [openedFunctions_scope isNew]
    refine ⟨_, get?_openScope opening, ?_⟩
    cases opening with
    | function isArrow name shape =>
      cases isArrow with
      | false => exact Or.inl (openedScope_kind nofun)
      | true => exact Or.inr (openedScope_kind nofun)
    | _ => cases isNew

theorem HasFunctionScopes.run (known : survey.HasFunctionScopes)
    (steps : List Step) : (steps.foldl Survey.step survey).HasFunctionScopes := by
  induction steps generalizing survey with
  | nil => exact known
  | cons step rest ih => exact ih (known.step step)

/-- A function of the table was listed when its scope opened. -/
theorem functions_run {steps : List Step} {function : FunctionRecord}
    (member : function ∈ (steps.foldl Survey.step survey).table.functions) :
    function ∈ survey.table.functions ∨ ∃ opening, .openScope opening ∈ steps ∧
        (functionParts opening).2 = some function.toFunctionShape := by
  induction steps generalizing survey with
  | nil => exact Or.inl member
  | cons step rest ih =>
    rcases ih member with isStep | ⟨opening, isOpened, isShape⟩
    · rcases functions_step isStep with isOld | ⟨opening, rfl, isNew⟩
      · exact Or.inl isOld
      · refine Or.inr ⟨opening, List.mem_cons_self, ?_⟩
        obtain ⟨shape, isShape, rfl⟩ := List.mem_map.1 isNew
        exact Option.mem_toList.1 isShape
    · exact Or.inr ⟨opening, List.mem_cons_of_mem _ isOpened, isShape⟩

end Survey

/-! ## Shapes -/

/-- A body that is an expression has no statements. -/
def FunctionShape.IsSettled (shape : FunctionShape) : Prop :=
  shape.hasExpressionBody = true → shape.destructurings = []

namespace Node

variable {name : Option (String × Span)} {shape : FunctionShape}

theorem isSettled_of_opening? {node : Node} {isArrow : Bool}
    (isOpening : node.opening? = some (.function isArrow name (some shape))) :
    shape.IsSettled := by
  have isShape : node.shape? = some shape := by
    unfold opening? at isOpening
    split at isOpening
    case h_5 kind _ _ _ _ _ _ => cases isForm : kind.scopeForm? <;> simp [isForm] at isOpening
    all_goals simp_all
  obtain ⟨body, _, rfl⟩ := Option.map_eq_some_iff.1 isShape
  split
  · exact fun _ => rfl
  · exact nofun
  · exact nofun

/-- The functions that a tree opens have settled shapes. -/
theorem isSettled_of_mem_trace {node : Node} {access : Access} {isArrow : Bool}
    (member : .openScope (.function isArrow name (some shape)) ∈ node.trace access) :
    shape.IsSettled := by
  induction node using Node.induction generalizing access with
  | step kind span children ih =>
    rcases kind.reference_cases with ⟨name, rfl⟩ | notReference
    · simp [trace_reference] at member
    · obtain ⟨rest, trace, woven⟩ := exists_woven notReference span children access
      rw [trace] at member
      rcases List.mem_append.1 member with isOwn | isLater
      · cases isPlain_arrival _ _ _ isOwn
      · rcases woven.opens_or_mem isLater with isOpening | ⟨part, isPart, used, isInside⟩
        · exact isSettled_of_opening? isOpening
        · obtain ⟨child, isChild, rfl⟩ := List.mem_map.1 isPart
          exact ih child isChild isInside

end Node

namespace ScopeTable

theorem WellFormed.mem_of_enclosingFunction? {table : ScopeTable} (wellFormed : table.WellFormed)
    {id : ScopeId} {function : FunctionRecord}
    (found : table.enclosingFunction? id = some function) :
    function ∈ table.functions ∧ function.scope ∈ table.ancestors id := by
  obtain ⟨_, around, isFunction⟩ := List.exists_of_findSome?_eq_some found
  exact ⟨mem_of_function? isFunction, wellFormed.scope_of_function? isFunction ▸ around⟩

theorem isFunctionScope_of_mem_functions {root : Node} {function : FunctionRecord}
    (member : function ∈ (ofProgram root).functions) :
    Survey.IsFunctionScope (ofProgram root) function.scope := by
  have known : Survey.start.HasFunctionScopes := by
    intro function absurd_
    cases absurd_
  rw [ofProgram_eq] at member ⊢
  exact known.run _ function member

/-- A function whose body is an expression takes no object apart. -/
theorem isSettled_of_mem_functions {root : Node} {function : FunctionRecord}
    (member : function ∈ (ofProgram root).functions) : function.IsSettled := by
  rw [ofProgram_eq] at member
  rcases Survey.functions_run member with absurd_ | ⟨opening, isOpened, isShape⟩
  · cases absurd_
  · cases opening with
    | function isArrow name shape =>
      cases isShape
      exact Node.isSettled_of_mem_trace isOpened
    | _ => cases isShape

end ScopeTable

end Codemod
