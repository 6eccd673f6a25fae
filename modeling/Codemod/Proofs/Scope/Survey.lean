import Codemod.Proofs.Scope.Resolution
import Codemod.Proofs.Scope.Settling

/-!
# Surveys build well-formed tables

A survey opens scopes, closes them and writes down what it meets.  Its open
scopes are at every moment the way outwards from the innermost of them; this
is what makes a scope's parent the scope that was open when it opened.  Every
step keeps it, so every trace gives a well-formed table.
-/

namespace Codemod

namespace ScopeTable

/-- A table that has the scopes of another one and perhaps more. -/
def Extends (older newer : ScopeTable) : Prop :=
  ∀ id scope, older.get? id = some scope →
    ∃ kept, newer.get? id = some kept ∧
      kept.parent = scope.parent ∧ kept.kind = scope.kind

variable {older newer : ScopeTable}

theorem Extends.refl (table : ScopeTable) : table.Extends table := by
  intro id scope found
  exact ⟨scope, found, rfl, rfl⟩

theorem Extends.trans {middle : ScopeTable} (first : older.Extends middle)
    (second : middle.Extends newer) : older.Extends newer := by
  intro id scope found
  obtain ⟨kept, keptFound, keptParent, keptKind⟩ := first id scope found
  obtain ⟨last, lastFound, lastParent, lastKind⟩ := second id kept keptFound
  exact ⟨last, lastFound, lastParent.trans keptParent, lastKind.trans keptKind⟩

theorem Extends.length_le (extends_ : older.Extends newer) :
    older.scopes.length ≤ newer.scopes.length := by
  cases count : older.scopes.length with
  | zero => exact Nat.zero_le _
  | succ last =>
    obtain ⟨scope, found⟩ :=
      exists_get? (show last < older.scopes.length by simp [count])
    obtain ⟨kept, keptFound, _⟩ := extends_ last scope found
    exact lt_length_of_get? keptFound

/-- More scopes do not change the way outwards from the old ones. -/
theorem Extends.ancestors_eq (extends_ : older.Extends newer)
    (olderFormed : older.WellFormed) (newerFormed : newer.WellFormed)
    {id : ScopeId} (inside : id < older.scopes.length) :
    newer.ancestors id = older.ancestors id := by
  induction id using olderFormed.induction with
  | absent id absent =>
    exact absurd inside (Nat.not_lt_of_le (get?_eq_none_iff.1 absent))
  | outermost id scope found around =>
    obtain ⟨kept, keptFound, keptParent, _⟩ := extends_ id scope found
    rw [ancestors_of_root found around, ancestors_of_root keptFound (keptParent.trans around)]
  | inner id scope parent found around ih =>
    obtain ⟨kept, keptFound, keptParent, _⟩ := extends_ id scope found
    have smaller := olderFormed.parent_lt found around
    rw [olderFormed.ancestors_cons found around,
      newerFormed.ancestors_cons keptFound (keptParent.trans around),
      ih (Nat.lt_trans smaller inside)]

/-! ## Declaring -/

theorem extends_declare (table : ScopeTable) (id : ScopeId) (name : String)
    (site : Site) : table.Extends (table.declare id name site) := by
  intro other scope found
  refine ⟨_, by rw [get?_declare, found, Option.map_some], ?_⟩
  split <;> exact ⟨rfl, rfl⟩

theorem WellFormed.declare {table : ScopeTable} (wellFormed : table.WellFormed)
    (id : ScopeId) (name : String) (site : Site) :
    (table.declare id name site).WellFormed where
  id_eq := by
    intro other scope found
    rw [get?_declare, Option.map_eq_some_iff] at found
    obtain ⟨old, oldFound, rfl⟩ := found
    have own := wellFormed.id_eq oldFound
    split <;> exact own
  parent_lt := by
    intro other parent scope found around
    rw [get?_declare, Option.map_eq_some_iff] at found
    obtain ⟨old, oldFound, rfl⟩ := found
    refine wellFormed.parent_lt oldFound ?_
    split at around <;> exact around
  function_lt := by
    intro function member
    rw [length_declare]
    exact wellFormed.function_lt member
  functions_increasing := wellFormed.functions_increasing
  functionByScope_eq := wellFormed.functionByScope_eq

/-! ## Opening a scope -/

/-- The table with one more scope, and the functions whose scope it is. -/
def push (table : ScopeTable) (scope : Scope) (functions : List FunctionRecord) :
    ScopeTable :=
  { table with
    scopes := table.scopes ++ [scope]
    functions := table.functions ++ functions
    functionByScope :=
      (functions.map fun function => (function.scope, table.functions.length)) ++
        table.functionByScope }

variable {table : ScopeTable} {scope : Scope} {functions : List FunctionRecord}

theorem get?_push (id : ScopeId) : (table.push scope functions).get? id =
      if id = table.scopes.length then some scope else table.get? id := by
  rw [get?, get?, push]
  by_cases last : id = table.scopes.length
  · simp [last]
  · rw [if_neg last]
    rcases Nat.lt_or_gt_of_ne last with inside | outside
    · exact List.getElem?_append_left inside
    · have beyond : table.scopes.length ≤ id := Nat.le_of_lt outside
      rw [List.getElem?_append_right beyond, List.getElem?_eq_none_iff.2 beyond,
        List.getElem?_eq_none_iff]
      simp only [List.length_singleton]
      exact Nat.sub_pos_of_lt outside

@[simp]
theorem length_push : (table.push scope functions).scopes.length = table.scopes.length + 1 := by
  simp [push]

theorem extends_push : table.Extends (table.push scope functions) := by
  intro id old found
  refine ⟨old, ?_, rfl, rfl⟩
  rw [get?_push, if_neg (Nat.ne_of_lt (lt_length_of_get? found)), found]

theorem WellFormed.push (wellFormed : table.WellFormed) (named : scope.id = table.scopes.length)
    (around : ∀ parent, scope.parent = some parent → parent < table.scopes.length)
    (owned : ∀ function ∈ functions, function.scope = table.scopes.length)
    (single : functions.length ≤ 1) :
    (table.push scope functions).WellFormed where
  id_eq := by
    intro id found isFound
    rw [get?_push] at isFound
    by_cases isLast : id = table.scopes.length
    · rw [if_pos isLast, Option.some.injEq] at isFound
      rw [← isFound, named, isLast]
    · rw [if_neg isLast] at isFound
      exact wellFormed.id_eq isFound
  parent_lt := by
    intro id parent found isFound isParent
    rw [get?_push] at isFound
    by_cases isLast : id = table.scopes.length
    · rw [if_pos isLast, Option.some.injEq] at isFound
      rw [isLast]
      exact around parent (isFound ▸ isParent)
    · rw [if_neg isLast] at isFound
      exact wellFormed.parent_lt isFound isParent
  function_lt := by
    intro function member
    rw [length_push]
    rcases List.mem_append.1 member with old | new
    · exact Nat.lt_succ_of_lt (wellFormed.function_lt old)
    · rw [owned function new]
      exact Nat.lt_succ_self _
  functions_increasing := by
    refine List.pairwise_append.2 ⟨wellFormed.functions_increasing, ?_, ?_⟩
    · match functions, single with
      | [], _ => exact List.Pairwise.nil
      | [only], _ => exact List.pairwise_singleton _ _
    · intro old isOld new isNew
      rw [owned new isNew]
      exact wellFormed.function_lt isOld
  functionByScope_eq := by
    rw [ScopeTable.push, List.zipIdx_append, List.map_append, List.reverse_append,
      wellFormed.functionByScope_eq]
    match functions, single with
    | [], _ => rfl
    | [only], _ => simp

/-- The first scope of a way outwards that goes on is left by closing it. -/
theorem WellFormed.ancestors_tail (wellFormed : table.WellFormed)
    {id next : ScopeId} {rest : List ScopeId}
    (way : table.ancestors id = id :: next :: rest) :
    table.ancestors next = next :: rest := by
  have isAround : next ∈ table.ancestors id := by
    rw [way]
    simp
  obtain ⟨inside, split, larger⟩ := wellFormed.ancestors_split isAround
  have self := wellFormed.mem_ancestors_self (wellFormed.le_of_mem_ancestors isAround).2
  rw [way] at split
  match inside, split with
  | [], split =>
    have ordered := wellFormed.ancestors_decreasing next
    rw [List.nil_append] at split
    rw [← split, List.pairwise_cons] at ordered
    have smaller := ordered.1 next List.mem_cons_self
    have larger := (wellFormed.le_of_mem_ancestors
      (show id ∈ table.ancestors next by rw [← split]; simp)).1
    exact absurd smaller (Nat.not_lt_of_le larger)
  | [only], split =>
    simp only [List.cons_append, List.nil_append, List.cons.injEq] at split
    exact split.2.symm
  | first :: second :: more, split =>
    simp only [List.cons_append, List.cons.injEq] at split
    have tooLarge := larger second (by simp)
    exact absurd tooLarge (split.2.1 ▸ Nat.lt_irrefl _)

end ScopeTable

namespace Survey

open ScopeTable

/-- What every survey satisfies, whatever steps it has taken. -/
structure Sound (survey : Survey) : Prop where
  formed : survey.table.WellFormed
  /-- The open scopes are the way outwards from the innermost one. -/
  way : ∀ {id : ScopeId} {rest : List ScopeId},
    survey.stack = id :: rest → survey.table.ancestors id = survey.stack

variable {survey : Survey}

theorem Sound.head_lt (sound : survey.Sound) {id : ScopeId}
    (isHead : survey.stack.head? = some id) :
    id < survey.table.scopes.length := by
  obtain ⟨rest, stack⟩ := List.head?_eq_some_iff.1 isHead
  have member : id ∈ survey.table.ancestors id := by
    rw [sound.way stack, stack]
    simp
  exact (sound.formed.le_of_mem_ancestors member).2

theorem sound_start : start.Sound where
  formed := {
    id_eq := by intro id scope found; simp [start, ScopeTable.empty, get?] at found
    parent_lt := by intro id parent scope found; simp [start, ScopeTable.empty, get?] at found
    function_lt := by intro function member; simp [start, ScopeTable.empty] at member
    functions_increasing := List.Pairwise.nil
    functionByScope_eq := rfl }
  way := by
    intro id rest stack
    simp [start] at stack

theorem Sound.declareIn (sound : survey.Sound) (id : ScopeId) (name : String)
    (site : Site) : (survey.declareIn id name site).Sound where
  formed := sound.formed.declare id name site
  way := by
    intro first rest stack
    rw [Survey.declareIn, ancestors_declare]
    exact sound.way stack

/-- The functions that a scope belongs to when it opens: none or one. -/
def openedFunctions (survey : Survey) (opening : Opening) : List FunctionRecord :=
  (functionParts opening).2.toList.map fun shape =>
    { shape with scope := survey.table.scopes.length }

/-- The span of the class that a scope is the scope of, if it is one's. -/
def openedClass? (survey : Survey) (opening : Opening) : Option Span :=
  match survey.expected with
  | some (depth, span) =>
    if openedKind opening == ScopeKind.block && depth == survey.stack.length
    then some span else none
  | none => none

/-- The scope that opens. -/
def openedScope (survey : Survey) (opening : Opening) : Scope where
  id := survey.table.scopes.length
  parent := survey.stack.head?
  kind :=
    if (survey.openedClass? opening).isSome then .classDefinition
    else openedKind opening
  span := (survey.openedClass? opening).getD survey.entered
  declarations := (functionParts opening).1

theorem openScope_table (opening : Opening) : (survey.openScope opening).table =
      survey.table.push (survey.openedScope opening) (survey.openedFunctions opening) := by
  cases opening with
  | function isArrow name shape => cases shape <;> rfl
  | _ => rfl

theorem openScope_stack (opening : Opening) : (survey.openScope opening).stack =
      survey.table.scopes.length :: survey.stack := rfl

/-- Only blocks become scopes of classes. -/
theorem openedScope_kind {opening : Opening} (notBlock : openedKind opening ≠ ScopeKind.block) :
    (survey.openedScope opening).kind = openedKind opening := by
  have plain : survey.openedClass? opening = none := by
    rw [openedClass?]
    split
    · simp [notBlock]
    · rfl
  simp [openedScope, plain]

/-- Neither blocks nor classes hold variables. -/
theorem openedScope_holdsVariables (opening : Opening) :
    (survey.openedScope opening).kind.holdsVariables = (openedKind opening).holdsVariables := by
  by_cases isBlock : openedKind opening = ScopeKind.block
  · rw [openedScope]
    split <;> simp [isBlock, ScopeKind.holdsVariables]
  · rw [openedScope_kind isBlock]

theorem openedFunctions_scope {opening : Opening} {function : FunctionRecord}
    (member : function ∈ survey.openedFunctions opening) :
    function.scope = survey.table.scopes.length := by
  simp only [openedFunctions, List.mem_map] at member
  obtain ⟨shape, _, rfl⟩ := member
  rfl

theorem openedFunctions_length (opening : Opening) :
    (survey.openedFunctions opening).length ≤ 1 := by
  rw [openedFunctions, List.length_map]
  cases (functionParts opening).2 <;> simp

theorem Sound.openScope (sound : survey.Sound) (opening : Opening) :
    (survey.openScope opening).Sound := by
  have formed : (survey.openScope opening).table.WellFormed := by
    rw [openScope_table]
    refine sound.formed.push rfl ?_ (fun _ => openedFunctions_scope)
      (openedFunctions_length opening)
    intro parent around
    exact sound.head_lt around
  refine ⟨formed, ?_⟩
  intro id rest stack
  rw [openScope_stack, List.cons.injEq] at stack
  obtain ⟨rfl, rfl⟩ := stack
  have found : (survey.openScope opening).table.get?
      survey.table.scopes.length = some (survey.openedScope opening) := by
    rw [openScope_table, get?_push, if_pos rfl]
  rw [openScope_stack]
  cases around : survey.stack with
  | nil =>
    exact ancestors_of_root found (by simp [openedScope, around])
  | cons parent outer =>
    have isParent : survey.stack.head? = some parent := by simp [around]
    have extension : survey.table.Extends (survey.openScope opening).table := by
      rw [openScope_table]
      exact extends_push
    rw [formed.ancestors_cons found isParent,
      extension.ancestors_eq sound.formed formed (sound.head_lt isParent),
      sound.way around, around]

theorem Sound.closeScope (sound : survey.Sound) :
    ({ survey with stack := survey.stack.tail } : Survey).Sound where
  formed := sound.formed
  way := by
    intro next rest stack
    cases current : survey.stack with
    | nil => simp [current] at stack
    | cons id outer =>
      simp only [current, List.tail_cons] at stack ⊢
      have way := sound.way current
      rw [current, stack] at way
      rw [stack]
      exact sound.formed.ancestors_tail way

/-- What a survey notes besides scopes and functions does not matter. -/
theorem Sound.congr (sound : survey.Sound) {other : Survey}
    (scopes : other.table.scopes = survey.table.scopes)
    (functions : other.table.functions = survey.table.functions)
    (byScope : other.table.functionByScope = survey.table.functionByScope)
    (stack : other.stack = survey.stack) : other.Sound where
  formed := by
    obtain ⟨id_eq, parent_lt, function_lt, increasing, functionByScope_eq⟩ := sound.formed
    constructor <;> simp only [get?, scopes, functions, byScope] at * <;> assumption
  way := by
    intro id rest isStack
    rw [ancestors_congr (congrArg List.length scopes) (by simp [get?, scopes]), stack]
    exact sound.way (stack ▸ isStack)

/-- What each single declaration keeps, a step that declares a name keeps. -/
@[elab_as_elim]
theorem step_declare_induction {motive : Survey → Prop} (reach : Reach) (name : String)
    (site : Site) (start : motive survey)
    (declareIn : ∀ other id, motive other → motive (other.declareIn id name site)) :
    motive (survey.step (.declare reach name site)) := by
  cases reach with
  | innermost => exact declareIn _ _ start
  | hoisted => exact declareIn _ _ start
  | both =>
    simp only [Survey.step]
    split
    · exact declareIn _ _ start
    · exact declareIn _ _ (declareIn _ _ start)

/-- Every step keeps a survey sound. -/
theorem Sound.step (sound : survey.Sound) (step : Step) : (survey.step step).Sound := by
  cases step with
  | enter span => exact sound.congr rfl rfl rfl rfl
  | openScope opening => exact sound.openScope opening
  | closeScope => exact sound.closeScope
  | expectClass span => exact sound.congr rfl rfl rfl rfl
  | declare reach name site =>
    exact step_declare_induction reach name site sound fun _ id kept =>
      kept.declareIn id name site
  | reference name span access => exact sound.congr rfl rfl rfl rfl
  | member chain span access => exact sound.congr rfl rfl rfl rfl
  | superCall span => exact sound.congr rfl rfl rfl rfl

theorem Sound.run (sound : survey.Sound) (steps : List Step) :
    (steps.foldl Survey.step survey).Sound := by
  induction steps generalizing survey with
  | nil => exact sound
  | cons step rest ih =>
    exact ih (sound.step step)

end Survey

namespace ScopeTable

/-- Every trace gives a well-formed table. -/
theorem wellFormed_ofSteps (steps : List Step) : (ofSteps steps).WellFormed :=
  (Survey.sound_start.run steps).formed

theorem wellFormed_ofProgram (root : Node) : (ofProgram root).WellFormed := by
  rw [ofProgram_eq]
  exact wellFormed_ofSteps _

variable {function : FunctionRecord} {table : ScopeTable} {id : ScopeId}

/-- A scope is listed with a place exactly if the function at the place has the scope. -/
theorem WellFormed.mem_functionByScope_iff (wellFormed : table.WellFormed) {index : Nat} :
    (id, index) ∈ table.functionByScope ↔
      ∃ function, table.functions[index]? = some function ∧ function.scope = id := by
  rw [wellFormed.functionByScope_eq, List.mem_reverse, List.mem_map]
  constructor
  · rintro ⟨⟨function, _⟩, member, same⟩
    cases same
    exact ⟨function, List.mem_zipIdx_iff_getElem?.1 member, rfl⟩
  · rintro ⟨function, isFunction, rfl⟩
    exact ⟨(function, index), List.mem_zipIdx_iff_getElem?.2 isFunction, rfl⟩

theorem WellFormed.functionByScope_decreasing (wellFormed : table.WellFormed) :
    table.functionByScope.Pairwise fun first second => second.1 < first.1 := by
  have increasing := wellFormed.functions_increasing
  rw [← List.zipIdx_map_fst 0 table.functions, List.pairwise_map] at increasing
  rw [wellFormed.functionByScope_eq, List.pairwise_reverse, List.pairwise_map]
  exact increasing

theorem WellFormed.nodup_keys (wellFormed : table.WellFormed) :
    (table.functionByScope.map (·.1)).Nodup := by
  rw [List.nodup_iff_pairwise_ne, List.pairwise_map]
  exact wellFormed.functionByScope_decreasing.imp fun smaller => Nat.ne_of_gt smaller

/-- A scope leads to a place exactly if the function at the place has the scope. -/
theorem WellFormed.lookup_eq_some_iff (wellFormed : table.WellFormed) {index : Nat} :
    table.functionByScope.lookup id = some index ↔
      ∃ function, table.functions[index]? = some function ∧ function.scope = id := by
  rw [← wellFormed.mem_functionByScope_iff, List.lookup_eq_some_iff]
  constructor
  · rintro ⟨before, after, split, _⟩
    rw [split]
    simp
  · intro member
    obtain ⟨before, after, split⟩ := List.append_of_mem member
    have decreasing := wellFormed.functionByScope_decreasing
    rw [split, List.pairwise_append] at decreasing
    refine ⟨before, after, split, fun entry isBefore => bne_iff_ne.2 ?_⟩
    exact Nat.ne_of_lt (decreasing.2.2 entry isBefore _ List.mem_cons_self)

/-- A function is found by its scope. -/
theorem WellFormed.function?_scope (wellFormed : table.WellFormed)
    (member : function ∈ table.functions) :
    table.function? function.scope = some function := by
  obtain ⟨index, isFunction⟩ := List.mem_iff_getElem?.1 member
  rw [function?, wellFormed.lookup_eq_some_iff.2 ⟨function, isFunction, rfl⟩, Option.bind_some,
    isFunction]

theorem mem_of_function? (found : table.function? id = some function) :
    function ∈ table.functions := by
  obtain ⟨index, _, isFunction⟩ := Option.bind_eq_some_iff.1 found
  exact List.mem_of_getElem? isFunction

theorem WellFormed.scope_of_function? (wellFormed : table.WellFormed)
    (found : table.function? id = some function) : function.scope = id := by
  obtain ⟨index, isPlace, isFunction⟩ := Option.bind_eq_some_iff.1 found
  obtain ⟨other, isOther, rfl⟩ := wellFormed.lookup_eq_some_iff.1 isPlace
  rw [isFunction, Option.some.injEq] at isOther
  rw [isOther]

theorem WellFormed.function?_eq_some_iff (wellFormed : table.WellFormed) :
    table.function? id = some function ↔ function ∈ table.functions ∧ function.scope = id := by
  constructor
  · exact fun found => ⟨mem_of_function? found, wellFormed.scope_of_function? found⟩
  · rintro ⟨member, rfl⟩
    exact wellFormed.function?_scope member

end ScopeTable

end Codemod
