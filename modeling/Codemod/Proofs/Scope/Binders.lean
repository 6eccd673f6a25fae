import Codemod.Proofs.Scope.Records

/-!
# What binds a name

`Binds` says, of the syntax alone, which nodes of a tree bind a name and how:
declarators, parameters, functions, classes, enumerations and namespaces, with
patterns nested to any depth.  The walk over the tree declares the names of all
of them but the last two, and a function that has been recorded has them
declared in its scope or inside it.
-/

namespace Codemod

/-- Whether a node of this kind is a part of an object pattern. -/
def Kind.isPatternPart : Kind → Bool
  | .patternProperty _ _ => true
  | .rest => true
  | _ => false

namespace Node

/-- A pattern, or a part of one, binds a name. -/
inductive Occurs (name : String) : Node → Prop
  | binding {span : Span} {types : List Node} :
      Occurs name (mk (.binding name) span types)
  | shorthand {isComputed : Bool} {span : Span} {value : Node}
      (inner : Occurs name value) :
      Occurs name (mk (.patternProperty true isComputed) span [value])
  | pair {isComputed : Bool} {span : Span} {key value : Node}
      (inner : Occurs name value) :
      Occurs name (mk (.patternProperty false isComputed) span [key, value])
  | rest {span : Span} {argument : Node} {more : List Node}
      (inner : Occurs name argument) : Occurs name (mk .rest span (argument :: more))
  | object {span : Span} {parts : List Node} {part : Node} (member : part ∈ parts)
      (isPart : part.kind.isPatternPart = true) (inner : Occurs name part) :
      Occurs name (mk .objectPattern span parts)
  | array {span : Span} {items : List Node} {item : Node} (member : item ∈ items)
      (inner : Occurs name item) : Occurs name (mk .arrayPattern span items)
  | default {span : Span} {pattern : Node} {more : List Node}
      (inner : Occurs name pattern) :
      Occurs name (mk .patternDefault span (pattern :: more))

variable {name : String} {pattern : Node}

theorem Occurs.exists_mem_declaredNames (occurs : pattern.Occurs name) :
    ∃ span, (name, span) ∈ pattern.declaredNames := by
  induction occurs with
  | @binding span types =>
    refine ⟨span, ?_⟩
    rw [declaredNames, fold_mk]
    exact List.mem_cons_self
  | shorthand _ ih =>
    rw [declaredNames, fold_mk]
    exact ih
  | pair _ ih =>
    rw [declaredNames, fold_mk]
    exact ih
  | rest _ ih =>
    refine ih.imp fun span member => ?_
    rw [declaredNames, fold_mk]
    exact List.mem_append_left _ member
  | object isMember _ _ ih =>
    refine ih.imp fun span member => ?_
    rw [declaredNames, fold_mk]
    exact List.mem_flatMap.2 ⟨_, List.mem_map_of_mem isMember, member⟩
  | array isMember _ ih =>
    refine ih.imp fun span member => ?_
    rw [declaredNames, fold_mk]
    exact List.mem_flatMap.2 ⟨_, List.mem_map_of_mem isMember, member⟩
  | default _ ih =>
    rw [declaredNames, fold_mk]
    exact ih

theorem Occurs.exists_mem_nestedNames (occurs : pattern.Occurs name) :
    ∃ entry ∈ pattern.nestedNames, entry.name = name := by
  obtain ⟨span, member⟩ := occurs.exists_mem_declaredNames
  exact ⟨⟨name, span, .nested⟩, List.mem_map_of_mem member, rfl⟩

/-- A name of a part of an object pattern has a place in the pattern. -/
theorem Occurs.exists_mem_propertyNames {part : Node} (occurs : part.Occurs name)
    (isPart : part.kind.isPatternPart = true) :
    ∃ entry ∈ part.propertyNames, entry.name = name := by
  have ofValue {value : Node} (inner : value.Occurs name)
      (notRest : ∀ span children, part ≠ mk .rest span children)
      (isValue : part.propertyValue? = some value) :
      ∃ entry ∈ part.propertyNames, entry.name = name := by
    unfold propertyNames
    split
    · exact absurd rfl (notRest _ _)
    · exact absurd rfl (notRest _ _)
    · rw [isValue]
      split
      · next same =>
        cases same
        cases inner
        exact ⟨_, List.mem_cons_self, rfl⟩
      · next same =>
        cases same
        cases inner with
        | default inner =>
          cases inner
          exact ⟨_, List.mem_cons_self, rfl⟩
      · next same =>
        cases same
        exact inner.exists_mem_nestedNames
      · next same => cases same
  cases occurs with
  | shorthand inner => exact ofValue inner nofun rfl
  | pair inner => exact ofValue inner nofun rfl
  | rest inner =>
    unfold propertyNames
    split
    · next same =>
      cases same
      cases inner
      exact ⟨_, List.mem_cons_self, rfl⟩
    · next same =>
      cases same
      exact inner.exists_mem_nestedNames
    · next notBinding notRest => exact absurd rfl (notRest _ _ _)
  | _ => cases isPart

theorem Occurs.exists_mem_patternNames (occurs : pattern.Occurs name) :
    ∃ entry ∈ pattern.patternNames, entry.name = name := by
  induction occurs with
  | binding => exact ⟨_, List.mem_cons_self, rfl⟩
  | shorthand inner => exact (Occurs.shorthand inner).exists_mem_nestedNames
  | pair inner => exact (Occurs.pair inner).exists_mem_nestedNames
  | rest inner => exact (Occurs.rest inner).exists_mem_nestedNames
  | object member isPart inner =>
    obtain ⟨entry, isEntry, isName⟩ := inner.exists_mem_propertyNames isPart
    exact ⟨entry, List.mem_flatMap.2 ⟨_, member, isEntry⟩, isName⟩
  | array member inner => exact (Occurs.array member inner).exists_mem_nestedNames
  | default _ ih => exact ih

/-- How a node binds a name. -/
inductive Binder where
  | declarator (node : Node)
  | parameter
  | catchParameter
  | function
  | classDefinition
  | enumeration
  | namespaceDefinition

/-- A node binds a name that stands for a value. -/
inductive Binds : Node → Binder → String → Prop
  /-- A declarator, whose pattern has no default of its own. -/
  | declarator {keyword : VariableKeyword} {span place : Span} {declarators rest : List Node}
      {pattern : Node} {name : String}
      (member : mk .declarator place (pattern :: rest) ∈ declarators)
      (plain : pattern.kind ≠ .patternDefault) (occurs : pattern.Occurs name) :
      Binds (mk (.variableList keyword) span declarators)
        (.declarator (mk .declarator place (pattern :: rest))) name
  | parameter {isOptional : Bool} {span place : Span} {parameters decorators : List Node}
      {pattern : Node} {name : String}
      (member : mk (.parameter isOptional) place (decorators ++ [pattern]) ∈ parameters)
      (occurs : pattern.Occurs name) : Binds (mk .parameters span parameters) .parameter name
  | restParameter {span place : Span} {parameters : List Node} {pattern : Node}
      {name : String} (member : mk .rest place [pattern] ∈ parameters)
      (occurs : pattern.Occurs name) : Binds (mk .parameters span parameters) .parameter name
  | catchParameter {span : Span} {patterns : List Node} {pattern : Node} {name : String}
      (member : pattern ∈ patterns) (occurs : pattern.Occurs name) :
      Binds (mk .catchParameter span patterns) .catchParameter name
  | function {form : FunctionForm} {span place : Span} {children : List Node}
      {name : String} (given : Trace.givenName? children = some (name, place)) :
      Binds (mk (.function form) span children) .function name
  | classDefinition {isDeclaration : Bool} {span place : Span} {children : List Node}
      {name : String} (given : Trace.givenName? children = some (name, place)) :
      Binds (mk (.classDefinition isDeclaration) span children) .classDefinition name
  | enumeration {span place : Span} {types members : List Node} {name : String} :
      Binds (mk .enumDeclaration span (mk (.binding name) place types :: members))
        .enumeration name
  | namespaceDefinition {span place : Span} {types body : List Node} {name : String} :
      Binds (mk .namespaceDeclaration span (mk (.binding name) place types :: body))
        .namespaceDefinition name

end Node

open Trace

/-- A step declares a name at a site. -/
inductive Step.Declares (name : String) (site : Site) : Step → Prop
  | declare {reach : Reach} : Declares name site (.declare reach name site)
  | openScope {opening : Opening}
      (member : (name, site) ∈ (Survey.functionParts opening).1) :
      Declares name site (.openScope opening)

theorem ScopeTable.Notes.declaresWithin {table : ScopeTable} {owner : ScopeId}
    {step : Step} {name : String} {site : Site} (notes : table.Notes owner step)
    (declares : step.Declares name site) : table.DeclaresWithin owner name site := by
  cases declares with
  | declare => exact notes
  | openScope member => exact notes (name, site) member

namespace Trace

variable {name : String}

theorem exists_declare_of_occurs {pattern : Node} (occurs : pattern.Occurs name)
    (reach : Reach) (kind : DeclarationKind) (declarator : Option DeclaratorInfo) :
    ∃ site, site.kind = kind ∧
      .declare reach name site ∈ declarePattern reach kind declarator pattern := by
  obtain ⟨entry, member, rfl⟩ := occurs.exists_mem_patternNames
  exact ⟨_, rfl, List.mem_map_of_mem member⟩

end Trace

namespace Node

variable {name : String} {span place : Span} {pattern : Node}

theorem exists_declare_of_parameter {parameters : List Node} {parameter : Node}
    (member : parameter ∈ parameters) (isPattern : parameterPattern? parameter = some pattern)
    (occurs : pattern.Occurs name) (access : Access) :
    ∃ site, site.kind = .parameter ∧
      .declare .innermost name site ∈ (mk .parameters span parameters).trace access := by
  obtain ⟨site, isKind, isStep⟩ := exists_declare_of_occurs occurs .innermost .parameter none
  refine ⟨site, isKind, ?_⟩
  apply notes_subset_trace
  refine List.mem_flatMap.2 ⟨pattern, ?_, isStep⟩
  exact List.mem_filterMap.2 ⟨_, member, isPattern⟩

theorem exists_declare_of_catchParameter {patterns : List Node} (member : pattern ∈ patterns)
    (occurs : pattern.Occurs name) (access : Access) :
    ∃ site, site.kind = .catchParameter ∧
      .declare .innermost name site ∈ (mk .catchParameter span patterns).trace access := by
  obtain ⟨site, isKind, isStep⟩ := exists_declare_of_occurs occurs .innermost .catchParameter none
  refine ⟨site, isKind, ?_⟩
  apply notes_subset_trace
  exact List.mem_flatMap.2 ⟨_, member, isStep⟩

/-- The names of a declarator are declared with their places and its value. -/
theorem exists_declare_of_variable {keyword : VariableKeyword} {declarators rest : List Node}
    {entry : PatternName} (member : mk .declarator place (pattern :: rest) ∈ declarators)
    (isEntry : entry ∈ pattern.patternNames) (access : Access) :
    ∃ reach, .declare reach entry.name ⟨entry.span, .variableName keyword, entry.place,
        some ⟨place, (mk .declarator place (pattern :: rest)).declaratorValue?.bind chain?⟩⟩ ∈
      (mk (.variableList keyword) span declarators).trace access := by
  refine ⟨if keyword == .var then .hoisted else .innermost, notes_subset_trace _ _ ?_⟩
  refine List.mem_flatMap.2 ⟨_, member, ?_⟩
  exact List.mem_map_of_mem isEntry

/-- A function declares what it notes around its scope, and opens its scope with its name. -/
theorem steps_of_function (form : FunctionForm) (span : Span) (children : List Node) :
    (mk (.function form) span children).outerSteps =
        (mk (.function form) span children).arrival .read ∧
      ∃ inside, (mk (.function form) span children).innerSteps =
        inScope (.function false (innerName? form children)
          (mk (.function form) span children).shape?) inside := by
  obtain ⟨_, inside, layout⟩ := exists_layout
    (show (Kind.function form).scopeForm? = some .whole from rfl) span children .read
  obtain rfl := Option.some.inj layout.isOpening
  have trace (access : Access) : (mk (.function form) span children).trace access =
      (mk (.function form) span children).arrival .read ++
        inScope (.function false (innerName? form children)
          (mk (.function form) span children).shape?) inside := by
    rw [trace_eq_read rfl, layout.whole.1]
  have plain := isPlain_arrival (mk (.function form) span children) .read
  exact ⟨outerSteps_eq trace plain, inside, innerSteps_eq trace plain⟩

/-- The name of a function is declared around the function or inside it. -/
theorem exists_declares_of_function {form : FunctionForm} {children : List Node}
    (given : Trace.givenName? children = some (name, place)) :
    (∃ site, site.kind = .function ∧
      .declare .both name site ∈ (mk (.function form) span children).outerSteps) ∨
    ∃ step ∈ (mk (.function form) span children).innerSteps, ∃ site,
      step.Declares name site ∧ site.kind = .functionName := by
  obtain ⟨outerEq, inside, innerEq⟩ := steps_of_function form span children
  rw [outerEq, innerEq]
  cases declared : isDeclared form children with
  | true =>
    refine Or.inl ⟨⟨place, .function, .direct, none⟩, rfl, List.mem_append_left _ ?_⟩
    simp [notes, declareGiven, declared, given]
  | false =>
    refine Or.inr ⟨_, List.mem_cons_self, ⟨place, .functionName, .direct, none⟩, ?_, rfl⟩
    apply Step.Declares.openScope
    simp [Survey.functionParts, innerName?, declared, given]

theorem exists_declare_of_class {isDeclaration : Bool} {children : List Node}
    (given : Trace.givenName? children = some (name, place)) (access : Access) :
    ∃ site, site.kind = .classDefinition ∧ .declare .innermost name site ∈
      (mk (.classDefinition isDeclaration) span children).trace access := by
  refine ⟨⟨place, .classDefinition, .direct, none⟩, rfl, ?_⟩
  apply notes_subset_trace
  simp [notes, declareGiven, given]

/-- Whatever binds a name, variables, enumerations and namespaces aside, declares it. -/
theorem Binds.exists_declares {node : Node} {binder : Binder}
    (binds : node.Binds binder name) (access : Access) :
    (∃ declarator, binder = .declarator declarator) ∨
      binder = .enumeration ∨ binder = .namespaceDefinition ∨
      ∃ step ∈ node.trace access, ∃ site,
        step.Declares name site ∧ site.kind.isVariable = false := by
  have ofDeclare {reach : Reach} {site : Site}
      (member : .declare reach name site ∈ node.trace access)
      (fixed : site.kind.isVariable = false) :
      ∃ step ∈ node.trace access, ∃ site, step.Declares name site ∧ site.kind.isVariable = false :=
    ⟨_, member, site, .declare, fixed⟩
  cases binds with
  | declarator => exact Or.inl ⟨_, rfl⟩
  | enumeration => exact Or.inr (Or.inl rfl)
  | namespaceDefinition => exact Or.inr (Or.inr (Or.inl rfl))
  | parameter member occurs =>
    obtain ⟨site, isKind, isStep⟩ := exists_declare_of_parameter member
      (by simp [parameterPattern?]) occurs access
    exact Or.inr (Or.inr (Or.inr (ofDeclare isStep (by rw [isKind]; rfl))))
  | restParameter member occurs =>
    obtain ⟨site, isKind, isStep⟩ := exists_declare_of_parameter member rfl occurs access
    exact Or.inr (Or.inr (Or.inr (ofDeclare isStep (by rw [isKind]; rfl))))
  | catchParameter member occurs =>
    obtain ⟨site, isKind, isStep⟩ := exists_declare_of_catchParameter member occurs access
    exact Or.inr (Or.inr (Or.inr (ofDeclare isStep (by rw [isKind]; rfl))))
  | @function form span place children _ given =>
    have same : (mk (.function form) span children).trace access =
        (mk (.function form) span children).trace .read := by
      rw [trace_eq_read rfl]
    rw [same] at ofDeclare ⊢
    refine Or.inr (Or.inr (Or.inr ?_))
    rcases exists_declares_of_function given with
      ⟨site, isKind, isStep⟩ | ⟨step, isStep, site, declares, isKind⟩
    · exact ofDeclare (List.takeWhile_subset _ isStep) (by rw [isKind]; rfl)
    · exact ⟨step, List.dropWhile_subset _ isStep, site, declares, by rw [isKind]; rfl⟩
  | classDefinition given =>
    obtain ⟨site, isKind, isStep⟩ := exists_declare_of_class given access
    exact Or.inr (Or.inr (Or.inr (ofDeclare isStep (by rw [isKind]; rfl))))

end Node

end Codemod
