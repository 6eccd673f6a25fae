import Codemod.Proofs.Scope.Records

/-!
# The table of a program

`IsTableOf` says what a scope table is to a program.  Scopes are numbered in
order and form one tree, whose root is the scope of the whole text; whatever the
table lists stands in one of them.  The functions that the table lists are those
of the program that have bodies, one entry each and found by their scopes.

All of this is kept by every step that is taken while a scope is open, and a
balanced run leaves open what was open.  That the way outwards from a scope
ends, and that it ends at the text, follows from the numbering alone.
-/

namespace Codemod

open Trace

namespace ScopeTable

/--
The scopes from one outwards, each the parent of the one before it.  The way
from a scope that does not exist is empty.
-/
inductive Way (table : ScopeTable) : ScopeId → List ScopeId → Prop
  | absent {id : ScopeId} (absent : table.get? id = none) : Way table id []
  | outermost {id : ScopeId} {scope : Scope} (found : table.get? id = some scope)
      (around : scope.parent = none) : Way table id [id]
  | inner {id parent : ScopeId} {scope : Scope} {rest : List ScopeId}
      (found : table.get? id = some scope) (around : scope.parent = some parent)
      (outer : Way table parent rest) : Way table id (id :: rest)

variable {table : ScopeTable}

/-- Climbing never runs out of fuel. -/
theorem WellFormed.way_ancestors (wellFormed : table.WellFormed) (id : ScopeId) :
    table.Way id (table.ancestors id) := by
  induction id using wellFormed.induction with
  | absent id absent =>
    rw [ancestors_of_none absent]
    exact .absent absent
  | outermost id scope found around =>
    rw [ancestors_of_root found around]
    exact .outermost found around
  | inner id scope parent found around ih =>
    rw [wellFormed.ancestors_cons found around]
    exact .inner found around ih

/-- The way outwards from a scope that exists ends at the scope of the text. -/
theorem WellFormed.getLast?_ancestors (wellFormed : table.WellFormed)
    (inner : ∀ {id scope}, table.get? id = some scope → id ≠ root → scope.parent ≠ none)
    {id : ScopeId} (inside : id < table.scopes.length) :
    (table.ancestors id).getLast? = some root := by
  induction id using wellFormed.induction with
  | absent id absent =>
    exact absurd inside (Nat.not_lt_of_le (get?_eq_none_iff.1 absent))
  | outermost id scope found around =>
    rw [ancestors_of_root found around, List.getLast?_singleton]
    by_contra notRoot
    exact inner found (fun same => notRoot (congrArg some same)) around
  | inner id scope parent found around ih =>
    have smaller := wellFormed.parent_lt found around
    rw [wellFormed.ancestors_cons found around, List.getLast?_cons,
      ih (Nat.lt_trans smaller inside), Option.getD_some]

end ScopeTable

open ScopeTable

/-! ## The scope of the text -/

namespace Survey

variable {survey : Survey}

/-- The scopes of a survey form one tree, and what is listed stands in them. -/
structure Rooted (survey : Survey) : Prop where
  text : ∃ scope, survey.table.get? root = some scope ∧
    scope.kind = .text ∧ scope.parent = none
  inner : ∀ {id scope}, survey.table.get? id = some scope → id ≠ root →
    scope.parent ≠ none
  references : ∀ reference ∈ survey.table.references,
    reference.scope < survey.table.scopes.length
  members : ∀ member ∈ survey.table.members,
    member.scope < survey.table.scopes.length
  superCalls : ∀ call ∈ survey.table.superCalls,
    call.scope < survey.table.scopes.length

theorem Rooted.declareIn (rooted : survey.Rooted) (id : ScopeId) (name : String)
    (site : Site) : (survey.declareIn id name site).Rooted where
  text := by
    obtain ⟨scope, found, isText, outermost⟩ := rooted.text
    obtain ⟨kept, keptFound, sameParent, sameKind⟩ :=
      extends_declare survey.table id name site root scope found
    exact ⟨kept, keptFound, sameKind.trans isText, sameParent.trans outermost⟩
  inner := by
    intro other scope found notRoot
    rw [Survey.declareIn, get?_declare, Option.map_eq_some_iff] at found
    obtain ⟨old, oldFound, rfl⟩ := found
    have around := rooted.inner oldFound notRoot
    split <;> exact around
  references := by
    rw [Survey.declareIn, length_declare]
    exact rooted.references
  members := by
    rw [Survey.declareIn, length_declare]
    exact rooted.members
  superCalls := by
    rw [Survey.declareIn, length_declare]
    exact rooted.superCalls

theorem Rooted.openScope (rooted : survey.Rooted) (isOpen : survey.stack ≠ [])
    (opening : Opening) : (survey.openScope opening).Rooted := by
  have longer : ∀ {id}, id < survey.table.scopes.length →
      id < (survey.openScope opening).table.scopes.length := by
    intro id inside
    rw [openScope_table, length_push]
    exact Nat.lt_succ_of_lt inside
  constructor
  · obtain ⟨scope, found, isText, outermost⟩ := rooted.text
    obtain ⟨kept, keptFound, sameParent, sameKind⟩ := extends_openScope opening root scope found
    exact ⟨kept, keptFound, sameKind.trans isText, sameParent.trans outermost⟩
  · intro id scope found notRoot
    rw [openScope_table, get?_push] at found
    by_cases isNew : id = survey.table.scopes.length
    · rw [if_pos isNew, Option.some.injEq] at found
      rw [← found]
      exact fun absent => isOpen (List.head?_eq_none_iff.1 absent)
    · rw [if_neg isNew] at found
      exact rooted.inner found notRoot
  · exact fun reference member => longer (rooted.references reference member)
  · exact fun access member => longer (rooted.members access member)
  · exact fun call member => longer (rooted.superCalls call member)

/-- Every step that is taken while a scope is open keeps the tree. -/
theorem Rooted.step (rooted : survey.Rooted) (sound : survey.Sound)
    (isOpen : survey.stack ≠ []) (step : Step) : (survey.step step).Rooted := by
  have here := sound.current_lt isOpen
  cases step with
  | openScope opening => exact rooted.openScope isOpen opening
  | declare reach name site =>
    exact step_declare_induction reach name site rooted fun _ id kept =>
      kept.declareIn id name site
  | reference name span access =>
    refine ⟨rooted.text, rooted.inner, fun reference member => ?_, rooted.members,
      rooted.superCalls⟩
    rcases List.mem_append.1 member with isOld | isNew
    · exact rooted.references reference isOld
    · rw [List.mem_singleton.1 isNew]
      exact here
  | member chain span access =>
    refine ⟨rooted.text, rooted.inner, rooted.references, fun use member => ?_, rooted.superCalls⟩
    rcases List.mem_append.1 member with isOld | isNew
    · exact rooted.members use isOld
    · rw [List.mem_singleton.1 isNew]
      exact here
  | superCall span =>
    refine ⟨rooted.text, rooted.inner, rooted.references, rooted.members,
      fun call member => ?_⟩
    rcases List.mem_append.1 member with isOld | isNew
    · exact rooted.superCalls call isOld
    · rw [List.mem_singleton.1 isNew]
      exact here
  | _ => exact ⟨rooted.text, rooted.inner, rooted.references, rooted.members,
      rooted.superCalls⟩

theorem Rooted.run {steps : List Step} (balanced : Balanced steps)
    (rooted : survey.Rooted) (sound : survey.Sound) (isOpen : survey.stack ≠ []) :
    (steps.foldl Survey.step survey).Rooted := by
  induction balanced generalizing survey with
  | nil => exact rooted
  | @step step steps plain _ ih =>
    apply ih (rooted.step sound isOpen step) (sound.step step)
    rw [stack_step_of_plain plain]
    exact isOpen
  | @scope opening inner outer within _ ihInside ihOutside =>
    rw [List.foldl_append]
    have closed := stack_run_of_balanced (within.inScope opening) survey
    apply ihOutside _ (sound.run _) (closed ▸ isOpen)
    have inside := ihInside (rooted.openScope isOpen opening)
      (sound.openScope opening) nofun
    have stack := stack_run_of_balanced within (survey.openScope opening)
    simp only [inScope, List.foldl_append, List.foldl_cons, List.cons_append, List.foldl_nil]
    apply inside.step ((sound.openScope opening).run inner)
    rw [stack]
    nofun

theorem rooted_begun (span : Span) : (begun span).Rooted where
  text := ⟨_, rfl, rfl, rfl⟩
  inner := by
    intro id scope found notRoot
    have inside := lt_length_of_get? found
    exact absurd (Nat.lt_one_iff.1 inside) notRoot
  references := List.forall_mem_nil _
  members := List.forall_mem_nil _
  superCalls := List.forall_mem_nil _

end Survey

namespace ScopeTable

theorem rooted_ofProgram {root : Node} (isText : root.kind = .program) :
    ∃ survey : Survey, survey.table = ofProgram root ∧ survey.Rooted := by
  obtain ⟨kind, span, children⟩ := root
  obtain rfl : kind = .program := isText
  refine ⟨_, (ofProgram_mk span children).symm, ?_⟩
  refine Survey.Rooted.run ?_ (Survey.rooted_begun span) (Survey.sound_begun span) nofun
  exact Node.balanced_of_children (woven_readAll _)

end ScopeTable

/-! ## The table -/

theorem Node.isArrow_of_hasExpressionBody {node : Node} {shape : FunctionShape}
    (isShape : node.shape? = some shape) (hasExpression : shape.hasExpressionBody = true) :
    shape.isArrow = true := by
  obtain ⟨body, _, rfl⟩ := Option.map_eq_some_iff.1 isShape
  split at hasExpression
  · rfl
  · cases hasExpression
  · cases hasExpression

/-- What a table is to the tree of a program. -/
structure ScopeTable.IsTableOf (table : ScopeTable) (tree : Node) : Prop where
  id_eq : ∀ {id scope}, table.get? id = some scope → scope.id = id
  text : ∃ scope, table.get? root = some scope ∧ scope.kind = .text ∧ scope.parent = none
  parent : ∀ {id scope}, table.get? id = some scope → id ≠ root →
    ∃ parent, scope.parent = some parent ∧ parent < id
  references : ∀ reference ∈ table.references, reference.scope < table.scopes.length
  members : ∀ member ∈ table.members, member.scope < table.scopes.length
  superCalls : ∀ call ∈ table.superCalls, call.scope < table.scopes.length
  functions : ∀ function ∈ table.functions, ∃ scope,
    table.get? function.scope = some scope ∧
      scope.kind = if function.isArrow then .arrow else .function
  increasing : table.functions.Pairwise fun first second => first.scope < second.scope
  /-- No scope has two places among the functions. -/
  keys : (table.functionByScope.map (·.1)).Nodup
  index_scope : ∀ {id index}, table.functionByScope.lookup id = some index →
    ∃ function, table.functions[index]? = some function ∧ function.scope = id
  index_unique : ∀ index < table.functions.length,
    ∃! id, table.functionByScope.lookup id = some index
  found : ∀ {id function}, table.function? id = some function ↔
    function ∈ table.functions ∧ function.scope = id
  hasExpressionBody : ∀ function ∈ table.functions,
    function.hasExpressionBody = true → function.isArrow = true
  /-- The functions are those of the tree that have bodies. -/
  entries : List.Forall₂ (fun function node => node.shape? = some function.toFunctionShape)
    table.functions (tree.nodes.filter fun node => node.body?.isSome)
  way : ∀ id, table.Way id (table.ancestors id)
  reaches : ∀ id < table.scopes.length, (table.ancestors id).getLast? = some root

theorem ScopeTable.isTableOf_ofProgram {tree : Node} (isText : tree.kind = .program) :
    (ofProgram tree).IsTableOf tree := by
  have formed := wellFormed_ofProgram tree
  have records := records_ofProgram isText
  have recorded : ∀ function ∈ (ofProgram tree).functions, ∃ node,
      (ofProgram tree).IsRecord function node := by
    intro function member
    obtain ⟨node, _, record⟩ := exists_isRecord isText member
    exact ⟨node, record⟩
  obtain ⟨survey, isTable, rooted⟩ := rooted_ofProgram isText
  rw [← isTable] at formed records recorded ⊢
  constructor
  · exact formed.id_eq
  · exact rooted.text
  · intro id scope found notRoot
    obtain ⟨parent, around⟩ := Option.ne_none_iff_exists'.1 (rooted.inner found notRoot)
    exact ⟨parent, around, formed.parent_lt found around⟩
  · exact rooted.references
  · exact rooted.members
  · exact rooted.superCalls
  · intro function member
    obtain ⟨node, record⟩ := recorded function member
    exact record.kind
  · exact formed.functions_increasing
  · exact formed.nodup_keys
  · exact formed.lookup_eq_some_iff.1
  · intro index inside
    have isFunction := List.getElem?_eq_getElem inside
    refine ⟨_, formed.lookup_eq_some_iff.2 ⟨_, isFunction, rfl⟩, fun id found => ?_⟩
    obtain ⟨other, isOther, rfl⟩ := formed.lookup_eq_some_iff.1 found
    rw [isFunction, Option.some.injEq] at isOther
    rw [isOther]
  · exact formed.function?_eq_some_iff
  · intro function member hasExpression
    obtain ⟨node, record⟩ := recorded function member
    exact Node.isArrow_of_hasExpressionBody record.shape hasExpression
  · exact records.imp fun function node record => record.shape
  · exact formed.way_ancestors
  · intro id inside
    exact formed.getLast?_ancestors rooted.inner inside

/--
The table that is built from a program is the table of the program, and the walk
that builds it ends with nothing pending and no scope open.
-/
theorem ScopeTable.ofProgram_isTableOf (tree : Node) (isText : tree.kind = .program) :
    (ofProgram tree).IsTableOf tree ∧
      (tree.signals.foldl Builder.hear .start).pending = .nothing ∧
      (tree.signals.foldl Builder.hear .start).survey.stack = [] := by
  have heard := tree.foldl_hear (.inr rfl) .start
  refine ⟨isTableOf_ofProgram isText, congrArg Builder.pending heard, ?_⟩
  rw [Builder.start, Pending.nothing, heard]
  exact Survey.stack_run_of_balanced (tree.balanced_trace .read) .start

/-- A class whose methods call the parent constructor and return a function. -/
def ScopeTable.memberRead : Option Program :=
  parseProgram .plain
    "class A extends B { constructor() { super(); } m(a) { return () => this.props.x; } }".toList

/-- The table of the sample lists its three functions, found by their scopes. -/
theorem ScopeTable.ofProgram_isTableOf_in_memberRead :
    ∃ program, memberRead = some program ∧ program.root.kind = .program ∧
      (ofProgram program.root).IsTableOf program.root ∧
      (ofProgram program.root).functions.map FunctionRecord.scope = [2, 3, 4] := by
  obtain ⟨program, parsed, scopes⟩ : ∃ program ∈ memberRead,
      (ofProgram program.root).functions.map FunctionRecord.scope = [2, 3, 4] := by
    decide +kernel
  have isText := kind_of_parseProgram parsed
  exact ⟨program, parsed, isText, (ofProgram_isTableOf program.root isText).1, scopes⟩

end Codemod
