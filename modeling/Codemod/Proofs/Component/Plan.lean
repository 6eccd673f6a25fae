import Codemod.Pipeline
import Codemod.Proofs.Context.Finding
import Codemod.Proofs.Scope.Places
import Codemod.Transform.Component

/-!
# Which components are converted

A statement at the top of a text is converted if it declares a single variable
and the variable is a component that nothing speaks against.  The plan for a
text has the edits of the converted statements, in order, and then the import of
the base class (`edits_plan`).
-/

namespace Codemod.Component

variable {program : Program} {options : TransformOptions} {statement : Node}
  {candidate : Candidate} {edits : List Edit} {edit : Edit}

/-- The component that a statement declares, if it declares nothing else. -/
def loneCandidate? (statement : Node) : Option Candidate := do
  let (declaration, stop) ← declaration? statement
  match declaration.children with
  | [declarator] => candidate? declaration.span.start stop declarator
  | _ => none

/-- A statement of a text declares a component, and edits make a class of it. -/
structure Converts (program : Program) (options : TransformOptions) (statement : Node)
    (candidate : Candidate) (edits : List Edit) : Prop where
  isStatement : statement ∈ program.root.bodyStatements
  isLone : loneCandidate? statement = some candidate
  isConverted : conversion program options (.ofProgram program.root) candidate = .ok edits

/-! ## Components as they stand in statements -/

/-- A declarator shows a component: a name, and an arrow function with its parts. -/
structure Shows (declarator : Node) (parts : List Node) (candidate : Candidate) : Prop where
  shape : ∃ span name place types, candidate.name = name.toList ∧
    declarator = .mk .declarator span [.mk (.binding name) place types,
      .mk (.arrow candidate.isAsync candidate.hasExpressionBody) candidate.arrow parts]
  isParameters : (parts.find? fun part => part.kind == .parameters) = some candidate.parameters
  isBody : parts.getLast? = some candidate.body
  isSurvey : candidate.survey = candidate.body.survey

theorem shows_of_candidate? {start stop : Nat} {declarator : Node}
    (isCandidate : candidate? start stop declarator = some candidate) :
    candidate.start = start ∧ candidate.stop = stop ∧
      ∃ parts, Shows declarator parts candidate := by
  unfold candidate? at isCandidate
  split at isCandidate
  · next span name place types isAsync hasExpressionBody arrow parts =>
    simp only [Option.bind_eq_bind, Option.bind_eq_some_iff] at isCandidate
    obtain ⟨parameters, isParameters, body, isBody, isShown⟩ := isCandidate
    split at isShown
    · cases isShown
      exact ⟨rfl, rfl, parts, ⟨span, name, place, types, rfl, rfl⟩, isParameters, isBody, rfl⟩
    · cases isShown
  · cases isCandidate

/--
A component stands in a statement.  A way leads to the declaration, which is the
statement or what it exports.
-/
structure StandsIn (statement : Node) (way : List Nat) (parts : List Node)
    (candidate : Candidate) : Prop where
  isWay : way = [] ∨ way = [0] ∧ statement.kind = .exportNamed
  declaration : ∃ keyword span declarator, span.start = candidate.start ∧
    statement.at? way = some (.mk (.variableList keyword) span [declarator]) ∧
      Shows declarator parts candidate
  isStop : candidate.stop = statement.span.stop

theorem standsIn_of_loneCandidate? (isLone : loneCandidate? statement = some candidate) :
    ∃ way parts, StandsIn statement way parts candidate := by
  simp only [loneCandidate?, Option.bind_eq_bind, Option.bind_eq_some_iff] at isLone
  obtain ⟨⟨declaration, stop⟩, isDeclaration, isLone⟩ := isLone
  split at isLone
  · next declarator alone =>
    obtain ⟨isStart, isStop, parts, shows⟩ := shows_of_candidate? isLone
    unfold declaration? at isDeclaration
    split at isDeclaration
    · next keyword span declarators =>
      cases isDeclaration
      obtain rfl : declarators = [declarator] := alone
      exact ⟨[], parts, Or.inl rfl, ⟨keyword, span, declarator, isStart.symm, rfl, shows⟩, isStop⟩
    · next span keyword inner declarators others =>
      cases isDeclaration
      obtain rfl : declarators = [declarator] := alone
      exact ⟨[0], parts, Or.inr ⟨rfl, rfl⟩,
        ⟨keyword, inner, declarator, isStart.symm, rfl, shows⟩, isStop⟩
    · cases isDeclaration
  · cases isLone

theorem survey_of_loneCandidate? (isLone : loneCandidate? statement = some candidate) :
    candidate.survey = candidate.body.survey := by
  obtain ⟨_, _, stands⟩ := standsIn_of_loneCandidate? isLone
  obtain ⟨_, _, _, _, _, shows⟩ := stands.declaration
  exact shows.isSurvey

/-! ## What speaks against a conversion -/

/-- The edits that point the uses of the parameter at the properties, if there is one. -/
def redirections (table : ScopeTable) (candidate : Candidate) :
    Except SkipReason (List Edit) := do
  match ← parameter? candidate.parameters.children with
  | some parameter => parameterEdits table candidate parameter
  | none => .ok []

variable {table : ScopeTable}

/-- All that has to hold for a component to be converted. -/
theorem conversion_eq_ok_iff : conversion program options table candidate = .ok edits ↔
      candidate.name ≠ options.componentBase.toList ∧ candidate.isAsync = false ∧
        candidate.survey.usesOwnFunction = false ∧
        ∃ redirected, redirections table candidate = .ok redirected ∧ edits = redirected ++
            layoutEdits program.source options.style options.componentBase.toList candidate := by
  unfold conversion redirections Context.Survey.usesOwnFunction
  by_cases collides : candidate.name = options.componentBase.toList
  · simp [collides]
  cases candidate.isAsync with
  | true => simp [collides]
  | false =>
    cases candidate.survey.hasOwnThis with
    | true => simp [collides]
    | false =>
      cases candidate.survey.hasOwnContext with
      | true => simp [collides]
      | false =>
        simp only [beq_iff_eq, collides, Bool.false_eq_true, if_false, ne_eq,
          not_false_eq_true, Bool.or_self, true_and]
        cases parameter? candidate.parameters.children with
        | error reason => simp [bind, Except.bind]
        | ok parameter =>
          cases parameter with
          | none => simp [bind, Except.bind, pure, Except.pure, eq_comm]
          | some parameter =>
            cases isRedirected : parameterEdits table candidate parameter with
            | error reason => simp [bind, Except.bind, isRedirected]
            | ok redirected =>
              simp [bind, Except.bind, pure, Except.pure, isRedirected, eq_comm]

/-- The uses of a parameter: the references to its name in the scope of its function. -/
def uses (table : ScopeTable) (scope : ScopeId) (parameter : String) : List Reference :=
  table.references.filter fun reference =>
    reference.name == parameter && table.isWithin reference.scope scope

theorem mem_uses_iff {scope : ScopeId} {parameter : String} {reference : Reference} :
    reference ∈ uses table scope parameter ↔ reference ∈ table.references ∧
      reference.name = parameter ∧ table.isWithin reference.scope scope = true := by
  rw [uses, List.mem_filter, Bool.and_eq_true, beq_iff_eq]

theorem referenceBlocker?_eq_none_iff {scope : ScopeId} {reference : Reference} :
    referenceBlocker? table scope reference = none ↔ reference.access ≠ .write ∧
      table.thisScope reference.scope = table.thisScope scope := by
  unfold referenceBlocker?
  by_cases isWrite : reference.access = .write
  · simp [isWrite]
  · by_cases same : table.thisScope reference.scope = table.thisScope scope <;>
      simp [isWrite, same]

/-- All that has to hold for the uses of a parameter to be redirected. -/
theorem parameterEdits_eq_ok_iff {parameter : String} {function : FunctionRecord}
    {redirected : List Edit}
    (isFunction : (table.functions.find? fun function => function.span == candidate.arrow) =
      some function) :
    parameterEdits table candidate parameter = .ok redirected ↔
      (table.declarationsWithin function.scope parameter).length ≤ 1 ∧
      (∀ reference ∈ uses table function.scope parameter, reference.access ≠ .write ∧
        table.thisScope reference.scope = table.thisScope function.scope) ∧
      redirected = (uses table function.scope parameter).map fun reference =>
        referenceEdit candidate.survey parameter reference.span := by
  unfold parameterEdits
  rw [isFunction]
  change (if _ then _ else _) = _ ↔ _
  split
  · next several => simp [Nat.not_le.mpr several]
  · next single =>
    simp only [Nat.not_lt.mp single, true_and, ← referenceBlocker?_eq_none_iff,
      ← List.findSome?_eq_none_iff]
    rw [← uses]
    cases isBlocked : (uses table function.scope parameter).findSome?
        (referenceBlocker? table function.scope) with
    | some reason => simp
    | none => simp [eq_comm]

/-! ## The plan for a text -/

/-- The edits that are planned for a statement. -/
def statementEdits (program : Program) (options : TransformOptions) (statement : Node) :
    List Edit :=
  match loneCandidate? statement with
  | some candidate =>
    (conversion program options (.ofProgram program.root) candidate).toOption.getD []
  | none => []

/-- The edits that import the base class. -/
def importEdits (program : Program) (options : TransformOptions) : List Edit :=
  let outcomes := program.root.bodyStatements.flatMap
    (considerStatement program options (.ofProgram program.root))
  if outcomes.any Outcome.isConverted then
    (baseImport? program options (.ofProgram program.root)).toList
  else []

theorem edits_considerCandidate (program : Program) (options : TransformOptions)
    (table : ScopeTable) (candidate : Candidate) :
    (considerCandidate program options table candidate).plan.edits =
      (conversion program options table candidate).toOption.getD [] := by
  rw [considerCandidate]
  cases conversion program options table candidate with
  | ok edits => rfl
  | error reason => rfl

/-- A statement with several variables is left as it is. -/
theorem edits_considerStatement (program : Program) (options : TransformOptions)
    (statement : Node) :
    (considerStatement program options (.ofProgram program.root) statement).flatMap
        (fun outcome => outcome.plan.edits) = statementEdits program options statement := by
  rw [considerStatement, statementEdits, loneCandidate?]
  cases declaration? statement with
  | none => rfl
  | some found =>
    obtain ⟨declaration, stop⟩ := found
    rw [Option.bind_eq_bind, Option.bind_some]
    dsimp only
    rcases declaration.children with _ | ⟨first, _ | ⟨second, rest⟩⟩
    · rfl
    · cases isCandidate : candidate? declaration.span.start stop first with
      | none => simp [isCandidate]
      | some candidate => simp [isCandidate, edits_considerCandidate]
    · rw [List.flatMap_eq_nil_iff]
      intro outcome isOutcome
      obtain ⟨declarator, _, isMapped⟩ := List.mem_filterMap.mp isOutcome
      obtain ⟨candidate, _, rfl⟩ := Option.map_eq_some_iff.mp isMapped
      rw [if_pos (by simp)]
      rfl

/-- The plan for a text is made of the plans for its statements and of the import. -/
theorem edits_plan (program : Program) (options : TransformOptions) : (plan program options).edits =
      program.root.bodyStatements.flatMap (statementEdits program options) ++
        importEdits program options := by
  rw [plan, Plan.edits_append, Plan.edits_concat, List.flatMap_map, List.flatMap_assoc]
  simp only [edits_considerStatement]
  rfl

namespace Converts

theorem statementEdits_eq (converts : Converts program options statement candidate edits) :
    statementEdits program options statement = edits := by
  rw [statementEdits, converts.isLone]
  dsimp only
  rw [converts.isConverted]
  rfl

end Converts

section

variable (isStatement : statement ∈ program.root.bodyStatements)
include isStatement

/-- An edit that is planned for a statement is one of those that convert it. -/
theorem exists_converts_of_mem (isEdit : edit ∈ statementEdits program options statement) :
    ∃ candidate, Converts program options statement candidate
      (statementEdits program options statement) := by
  cases isLone : loneCandidate? statement with
  | none =>
    rw [statementEdits, isLone] at isEdit
    cases isEdit
  | some candidate =>
    cases isConverted : conversion program options (.ofProgram program.root) candidate with
    | error reason =>
      simp [statementEdits, isLone, isConverted, Except.toOption] at isEdit
    | ok edits =>
      have converts : Converts program options statement candidate edits :=
        ⟨isStatement, isLone, isConverted⟩
      exact ⟨candidate, converts.statementEdits_eq.symm ▸ converts⟩

end

/-- Whether a component of a text is converted for which a test holds. -/
def convertsSome (text : Option Program) (test : Program → Candidate → List Edit → Bool) : Bool :=
  text.any fun program => program.root.bodyStatements.any fun statement =>
    (loneCandidate? statement).any fun candidate =>
      (conversion program .standard (.ofProgram program.root) candidate).toOption.any
        (test program candidate)

theorem exists_converts {text : Option Program} {test : Program → Candidate → List Edit → Bool}
    (isSome : convertsSome text test = true) :
    ∃ program statement candidate edits, text = some program ∧
      Converts program .standard statement candidate edits ∧
      test program candidate edits = true := by
  simp only [convertsSome, Option.any_eq_true, List.any_eq_true] at isSome
  obtain ⟨program, parsed, statement, isStatement, candidate, isLone, edits, isDone, holds⟩ :=
    isSome
  refine ⟨program, statement, candidate, edits, parsed, ⟨isStatement, isLone, ?_⟩, holds⟩
  cases isConverted : conversion program .standard (.ofProgram program.root) candidate with
  | error reason =>
    rw [isConverted] at isDone
    cases isDone
  | ok found =>
    rw [isConverted] at isDone
    exact congrArg Except.ok (Option.some.inj isDone)

/-- A component in a text whose import has a default name and empty braces. -/
def emptyBraces : List Char :=
  "import React, {} from 'react';\nconst A = () => <div/>;".toList

/--
The import of the sample has one name and is taken for a lone default name, so that
a second list follows the first: the result cannot be read again.
-/
theorem empty_braces_follow_new_list :
    ∃ output, Transform.pureToComposite.run .plain .standard emptyBraces = some output ∧
      output.text.take 45 = "import React, { Component }, {} from 'react';".toList ∧
      parseProgram .plain output.text = none := by
  obtain ⟨output, isOutput, isText, unread⟩ :
      ∃ output ∈ Transform.pureToComposite.run .plain .standard emptyBraces,
        output.text.take 45 = "import React, { Component }, {} from 'react';".toList ∧
        (parseProgram .plain output.text).isNone = true := by
    decide +kernel
  exact ⟨output, isOutput, isText, Option.isNone_iff_eq_none.1 unread⟩

end Codemod.Component
