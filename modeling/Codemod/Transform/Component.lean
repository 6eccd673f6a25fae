import Codemod.Scope.Table
import Codemod.Text.Lines
import Codemod.Transform.Basic
import Codemod.Transform.Context

/-!
# Arrow components to class components

A lone declaration of an arrow function that renders markup becomes a class
with a `render` method.  The body stays in place and is shifted to the right,
except for lines that start inside a literal; uses of the parameter become uses
of `this.props`.  A module that does not know the base class imports it.
-/

namespace Codemod.Component

def name : String := "pure-to-composite"

/-- A declarator whose value is an arrow function that renders markup. -/
structure Candidate where
  name : List Char
  arrow : Span
  isAsync : Bool
  parameters : Node
  body : Node
  hasExpressionBody : Bool
  /-- Where the declaration starts. -/
  start : Nat
  /-- Where the statement ends. -/
  stop : Nat
  survey : Context.Survey

/-- The candidate that a declarator of a statement is, if it is one. -/
def candidate? (start stop : Nat) (declarator : Node) : Option Candidate :=
  match declarator with
  | .mk .declarator _ [.mk (.binding name) _ _,
      .mk (.arrow isAsync hasExpressionBody) span children] => do
      let parameters ← children.find? fun child => child.kind == .parameters
      let body ← children.getLast?
      let survey := body.survey
      if survey.hasMarkup then
        some ⟨name.toList, span, isAsync, parameters, body, hasExpressionBody,
          start, stop, survey⟩
      else none
  | _ => none

/-- The variables that a statement at the top declares, with its end. -/
def declaration? : Node → Option (Node × Nat)
  | .mk (.variableList keyword) span declarators =>
    some (.mk (.variableList keyword) span declarators, span.stop)
  | .mk .exportNamed span (.mk (.variableList keyword) inner declarators :: _) =>
    some (.mk (.variableList keyword) inner declarators, span.stop)
  | _ => none

/-- The parameter of a component: none, or a single name. -/
def parameter? (parameters : List Node) : Except SkipReason (Option String) :=
  match parameters with
  | [] => .ok none
  | [.mk (.parameter _) _ children] =>
    match children.getLast? with
    | some (.mk (.binding name) _ _) => .ok (some name)
    | _ => .error .unsupportedParameters
  | _ => .error .unsupportedParameters

/-- Point one use of the parameter at the component's properties. -/
def referenceEdit (survey : Context.Survey) (parameter : String)
    (reference : Span) : Edit :=
  match survey.shorthands.find? fun property => property.contains reference with
  | some property => .replace property (parameter.toList ++ ": this.props".toList)
  | none => .replace reference "this.props".toList

/-- Why a use of the parameter cannot be redirected. -/
def referenceBlocker? (table : ScopeTable) (scope : ScopeId)
    (reference : Reference) : Option SkipReason :=
  if reference.access == .write then some .reassigned
  else if table.thisScope reference.scope != table.thisScope scope then
    some .parameterInNestedFunction
  else none

/-- Point every use of the parameter at the component's properties. -/
def parameterEdits (table : ScopeTable) (candidate : Candidate)
    (parameter : String) : Except SkipReason (List Edit) := do
  let function ←
    match table.functions.find? fun function => function.span == candidate.arrow with
    | some function => .ok function
    | none => .error .noEnclosingFunction
  let scope := function.scope
  if (table.declarationsWithin scope parameter).length > 1 then
    .error .parameterRedeclared
  else
    let references := table.references.filter fun reference =>
      reference.name == parameter && table.isWithin reference.scope scope
    match references.findSome? (referenceBlocker? table scope) with
    | some reason => .error reason
    | none =>
      .ok (references.map fun reference =>
        referenceEdit candidate.survey parameter reference.span)

/-- The lines of the body that are shifted. -/
def shiftedLines (source : List Char) (candidate : Candidate) : List Nat :=
  (Text.lineStartsWithin source candidate.body.span.start
    candidate.body.span.stop).filter fun line => !candidate.survey.isLiteral line

/-- One level of indentation, as the body shows it or else as the style says. -/
def indentUnit (source : List Char) (style : Style) (indent : List Char)
    (lines : List Nat) : List Char :=
  (lines.findSome? fun line =>
    Text.indentStep indent (Text.lineIndent source line)).getD style.indentUnit

/-- The class around the body, and the shift of the body's lines. -/
def layoutEdits (source : List Char) (style : Style) (base : List Char)
    (candidate : Candidate) : List Edit :=
  let indent := Text.lineIndent source candidate.start
  let lines := shiftedLines source candidate
  let unit := indentUnit source style indent lines
  let body := candidate.body.span
  let opening := "class ".toList ++ candidate.name ++ " extends ".toList ++ base ++
    " \x7b\n".toList ++ indent ++ unit ++ "render() ".toList
  let closing := '\n' :: indent ++ ['}']
  let (header, footer, shift) :=
    if candidate.hasExpressionBody then
      (opening ++ "\x7b\n".toList ++ indent ++ unit ++ unit ++ "return ".toList,
        ";\n".toList ++ indent ++ unit ++ ['}'] ++ closing, unit ++ unit)
    else (opening, closing, unit)
  [.replace ⟨candidate.start, body.start⟩ header] ++
    (lines.map fun line => .insert line shift) ++
    [.replace ⟨body.stop, candidate.stop⟩ footer]

def conversion (program : Program) (options : TransformOptions)
    (table : ScopeTable) (candidate : Candidate) :
    Except SkipReason (List Edit) := do
  let base := options.componentBase.toList
  if candidate.name == base then .error .baseClassCollision
  else if candidate.isAsync then .error .asyncComponent
  else if candidate.survey.hasOwnThis then .error .usesThis
  else if candidate.survey.hasOwnContext then .error .usesFunctionContext
  else
    let redirected ←
      match ← parameter? candidate.parameters.children with
      | some parameter => parameterEdits table candidate parameter
      | none => .ok []
    return redirected ++ layoutEdits program.source options.style base candidate

/-- A plan, and whether it makes a class. -/
structure Outcome where
  plan : Plan
  isConverted : Bool

def considerCandidate (program : Program) (options : TransformOptions)
    (table : ScopeTable) (candidate : Candidate) : Outcome :=
  match conversion program options table candidate with
  | .ok edits => ⟨⟨edits, []⟩, true⟩
  | .error reason => ⟨.skip name candidate.arrow reason, false⟩

def considerStatement (program : Program) (options : TransformOptions)
    (table : ScopeTable) (statement : Node) : List Outcome :=
  match declaration? statement with
  | none => []
  | some (declaration, stop) =>
    let declarators := declaration.children
    declarators.filterMap fun declarator =>
      (candidate? declaration.span.start stop declarator).map fun candidate =>
        if declarators.length > 1 then
          ⟨.skip name declarator.span .sharedDeclaration, false⟩
        else considerCandidate program options table candidate

/-- The import of the base class in an existing import from its module. -/
def extendedImport? (options : TransformOptions) (statement : Node) :
    Option Edit :=
  match statement with
  | .mk (.importDeclaration source false) _ children =>
    if source != options.componentModule then none
    else
      let base := options.componentBase.toList
      let named := children.filter fun child => child.kind == .importSpecifier
      let specifiers := children.filter fun child =>
        child.kind == .importSpecifier || child.kind == .importDefault ||
          child.kind == .importNamespace
      match named.getLast?, specifiers with
      | some last, _ => some (.insert last.span.stop (", ".toList ++ base))
      | none, [.mk .importDefault span _] =>
        some (.insert span.stop (", ".toList ++ options.style.braced [base]))
      | none, _ => none
  | _ => none

def lastImportEnd? (statements : List Node) : Option Nat :=
  (statements.filter fun statement =>
    match statement.kind with
    | .importDeclaration _ _ => true
    | _ => false).getLast?.map fun statement => statement.span.stop

/-- The import of the base class into a module that does not bind it. -/
def baseImport? (program : Program) (options : TransformOptions)
    (table : ScopeTable) : Option Edit :=
  let isBound := (table.get? ScopeTable.root).any fun scope =>
    scope.hasBinding options.componentBase
  if !program.dialect.isModule || !Text.isPlainName options.componentBase ||
      isBound then none
  else
    let statements := program.root.bodyStatements
    match statements.findSome? (extendedImport? options) with
    | some edit => some edit
    | none =>
      let line := "import ".toList ++
        options.style.braced [options.componentBase.toList] ++ " from ".toList ++
        options.style.quoted options.componentModule.toList ++ [';']
      match lastImportEnd? statements with
      | some stop => some (.insert stop ('\n' :: line))
      | none => statements.head?.map fun statement =>
        .insert statement.span.start (line ++ "\n\n".toList)

def plan (program : Program) (options : TransformOptions) : Plan :=
  let table := ScopeTable.ofProgram program.root
  let outcomes := program.root.bodyStatements.flatMap
    (considerStatement program options table)
  let imported :=
    if outcomes.any Outcome.isConverted then
      (baseImport? program options table).toList
    else []
  Plan.concat (outcomes.map Outcome.plan) ++ ⟨imported, []⟩

end Codemod.Component

namespace Codemod.Transform

/-- Make class components of arrow function components. -/
def pureToComposite : Transform where
  name := Component.name
  description :=
    "Convert arrow function components into class components with a render method"
  paths := []
  changesModule := true
  plan := Component.plan

end Codemod.Transform
