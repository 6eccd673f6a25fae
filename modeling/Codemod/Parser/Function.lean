import Codemod.Parser.Types

/-!
# Functions

The parts that functions, methods and arrows share: bodies, return types and
the rules that hold inside them.
-/

namespace Codemod.Parser

/-- Whether a statement of a body is a directive such as a strictness mark. -/
def isDirective (statement : Node) : Bool :=
  match statement with
  | .mk .expressionStatement span [.mk (.stringLiteral _) inner _] =>
    span.start == inner.start
  | _ => false

/-- Turn the leading string statements of a body into directives. -/
def markDirectives : List Node → List Node
  | [] => []
  | statement :: rest =>
    if isDirective statement then
      .mk .directive statement.span statement.children :: markDirectives rest
    else statement :: rest

def statementsInBraces (grammar : Grammar) : Parser (List Node) := do
  expect .openBrace
  untilMark .closeBrace grammar.statement

def functionBody (grammar : Grammar) : Parser Node := do
  let start ← position
  let statements ← statementsInBraces grammar
  nodeFrom start .functionBody (markDirectives statements)

def insideFunction (isAsync isGenerator : Bool) (context : Context) : Context :=
  { context with
    allowsIn := true
    allowsAwait := isAsync
    allowsYield := isGenerator
    allowsReturn := true
    allowsArrowType := true
    allowsConditionalType := true }

def functionRest (grammar : Grammar) (start : Nat) (form : FunctionForm)
    (name : Option Node) : Parser Node :=
  withContext (insideFunction form.isAsync form.isGenerator) do
    let typeParameters ← typeParameters? grammar
    let parameters ← parameterList grammar
    let type ← returnAscription grammar
    let body ←
      if ← isAt .openBrace then some <$> functionBody grammar
      else
        require ((← context).isTyped && form.role != .expression)
        endStatement
        pure none
    nodeFrom start (.function form)
      (present [name, typeParameters, some parameters, type, body])

/-- A function from its keyword on; `start` is where an `async` stood. -/
def functionFrom (grammar : Grammar) (start : Nat) (role : FunctionRole)
    (isAsync : Bool) (needsName : Bool) : Parser Node := do
  expectWord "function"
  let isGenerator ← eat .star
  let readName : Parser Node :=
    match role with
    | .expression =>
      withContext (insideFunction isAsync isGenerator) binding
    | _ => binding
  let name ←
    if ← isAt .openParen then pure none
    else if ← isAt .less then pure none
    else some <$> readName
  require (!needsName || name.isSome)
  functionRest grammar start ⟨role, isAsync, isGenerator⟩ name

/-- Whether `async` and `function` stand on one line. -/
def isAsyncFunction : Parser Bool := do
  if ← isAtWord "async" then
    return (← following).any fun token =>
      token.kind == .word "function" false && !token.onNewLine
  else return false

def methodFunction (grammar : Grammar) (isAsync isGenerator : Bool) :
    Parser Node := do
  functionRest grammar (← position) ⟨.method, isAsync, isGenerator⟩ none

end Codemod.Parser
