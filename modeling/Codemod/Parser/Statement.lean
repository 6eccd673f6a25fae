import Codemod.Parser.Expression
import Codemod.Parser.Module

/-!
# Statements

Statements, declarations and the statements of typed texts.
-/

namespace Codemod.Parser

/-! ## Variables -/

/-- Where a list of variables stands. -/
inductive VariablePlace where
  | statement
  | forHead
  deriving DecidableEq

def declarator (grammar : Grammar) (keyword : VariableKeyword)
    (place : VariablePlace) : Parser Node := do
  let pattern ← grammar.pattern
  let context ← context
  if context.isTyped && (← isAt .bang) && !(← onNewLine) then advance
  let pattern ← ascribed grammar pattern
  let value ← if ← eat .assign then some <$> grammar.assignment else pure none
  let isName := match pattern.kind with
    | .binding _ => true
    | _ => false
  let isResource := keyword == .resource || keyword == .awaitedResource
  require (!isResource || isName)
  let isComplete := value.isSome || place == .forHead || context.isAmbient ||
    (isName && keyword != .constant && !isResource)
  require isComplete
  nodeFrom pattern.span.start .declarator (present [some pattern, value])

def variablesRest (grammar : Grammar) (start : Nat) (keyword : VariableKeyword)
    (place : VariablePlace) : Parser Node := do
  let first ← declarator grammar keyword place
  let others ← many do
    if ← eat .comma then return some (← declarator grammar keyword place)
    else return none
  if place == .statement then endStatement
  nodeFrom start (.variableList keyword) (first :: others)

/-- Whether a token can follow `let` in a declaration. -/
def startsDeclarator (token : Token) : Bool :=
  isNameToken token || token.kind == .mark .openBracket ||
    token.kind == .mark .openBrace

def variableKeyword? : Parser (Option VariableKeyword) := do
  let next ← following
  match (← token).kind with
  | .word "var" false => return some .var
  | .word "const" false => return some .constant
  | .word "let" false =>
    if next.any startsDeclarator then return some .mutable else return none
  | .word "using" false =>
    let isResource := next.any fun token =>
      isNameToken token && !token.onNewLine && token.kind != .word "of" false
    if isResource then return some .resource else return none
  | .word "await" false =>
    let isResource ← lookahead do
      advance
      require ((← isAtWord "using") && !(← onNewLine))
      advance
      require ((← nameHere?).isSome && !(← onNewLine))
    if isResource.isSome then return some .awaitedResource else return none
  | _ => return none

def passKeyword (keyword : VariableKeyword) : Parser Unit := do
  advance
  if keyword == .awaitedResource then advance

/-! ## Control flow -/

def singleStatement (grammar : Grammar) : Parser Node := do
  let statement ← grammar.statement
  match statement.kind with
  | .variableList .var => return statement
  | .variableList _ => fail
  | .classDefinition _ => fail
  | .function form =>
    require (!form.isAsync && !form.isGenerator)
    return statement
  | _ => return statement

def condition (grammar : Grammar) : Parser Node := do
  expect .openParen
  let expression ← allowingIn (expression grammar)
  expect .closeParen
  return expression

def block (grammar : Grammar) : Parser Node := do
  let start ← position
  let statements ← statementsInBraces grammar
  nodeFrom start .block statements

def ifStatement (grammar : Grammar) : Parser Node := do
  let start ← position
  expectWord "if"
  let test ← condition grammar
  let positive ← singleStatement grammar
  let negative ←
    if ← eatWord "else" then some <$> singleStatement grammar else pure none
  nodeFrom start .ifStatement (present [some test, some positive, negative])

def doWhile (grammar : Grammar) : Parser Node := do
  let start ← position
  expectWord "do"
  let body ← singleStatement grammar
  expectWord "while"
  let test ← condition grammar
  let _ ← eat .semicolon
  nodeFrom start .doWhile [body, test]

def whileStatement (grammar : Grammar) : Parser Node := do
  let start ← position
  expectWord "while"
  let test ← condition grammar
  let body ← singleStatement grammar
  nodeFrom start .whileStatement [test, body]

/-- The rest of a loop over the items of something; only `of` can await them. -/
def forEach (grammar : Grammar) (start : Nat) (isAwaited : Bool) (left : Node) :
    Parser (Option Node) := do
  if ← eatWord "of" then
    let right ← allowingIn grammar.assignment
    expect .closeParen
    let body ← singleStatement grammar
    return some (← nodeFrom start .forOf [left, right, body])
  else if ← eatWord "in" then
    require !isAwaited
    let right ← allowingIn (expression grammar)
    expect .closeParen
    let body ← singleStatement grammar
    return some (← nodeFrom start .forIn [left, right, body])
  else return none

/-- The rest of a counting loop after what it starts with. -/
def forRest (grammar : Grammar) (start : Nat) (first : Option Node) :
    Parser Node := do
  expect .semicolon
  let test ←
    if ← isAt .semicolon then pure none
    else some <$> allowingIn (expression grammar)
  expect .semicolon
  let step ←
    if ← isAt .closeParen then pure none
    else some <$> allowingIn (expression grammar)
  expect .closeParen
  let body ← singleStatement grammar
  nodeFrom start .forStatement (present [first, test, step, some body])

def forStatement (grammar : Grammar) : Parser Node := do
  let start ← position
  expectWord "for"
  let isAwaited ← if (← context).allowsAwait then eatWord "await" else pure false
  expect .openParen
  let withoutIn (parser : Parser Node) : Parser Node :=
    withContext (fun context => { context with allowsIn := false }) parser
  if ← isAt .semicolon then
    require !isAwaited
    forRest grammar start none
  else
    let headStart ← position
    match ← variableKeyword? with
    | some keyword =>
      passKeyword keyword
      let declaration ←
        withoutIn (variablesRest grammar headStart keyword .forHead)
      match ← forEach grammar start isAwaited declaration with
      | some loop => return loop
      | none =>
        let isComplete := declaration.children.all fun declarator =>
          declarator.children.length > 1 ||
            (keyword != .constant && declarator.children.all fun child =>
              match child.kind with
              | .binding _ => true
              | _ => false)
        require (isComplete && !isAwaited)
        forRest grammar start (some declaration)
    | none =>
      let startsAsync := (← isAtWord "async") && (← following).any fun token =>
        token.kind == .word "of" false
      let first ← withoutIn (expression grammar)
      if (← isAtWord "of") || (← isAtWord "in") then
        require (!(startsAsync && !isAwaited) || first.kind != .reference "async")
        let target ← asTarget first
        match ← forEach grammar start isAwaited target with
        | some loop => return loop
        | none => fail
      else
        require !isAwaited
        forRest grammar start (some first)

/-- `break` or `continue` with its label. -/
def jump (word : String) (kind : Kind) : Parser Node := do
  let start ← position
  expectWord word
  let label ←
    if ← canEndStatement then pure none
    else
      match ← nameHere? with
      | some name => some <$> leaf (.label name)
      | none => fail
  endStatement
  nodeFrom start kind (present [label])

def returnStatement (grammar : Grammar) : Parser Node := do
  require (← context).allowsReturn
  let start ← position
  expectWord "return"
  let value ←
    if ← canEndStatement then pure none
    else some <$> allowingIn (expression grammar)
  endStatement
  nodeFrom start .returnStatement (present [value])

/-- `throw` with its value on the same line. -/
def throwStatement (grammar : Grammar) : Parser Node := do
  let start ← position
  expectWord "throw"
  require !(← onNewLine)
  let value ← allowingIn (expression grammar)
  endStatement
  nodeFrom start .throwStatement [value]

def withStatement (grammar : Grammar) : Parser Node := do
  let start ← position
  expectWord "with"
  let object ← condition grammar
  let body ← singleStatement grammar
  nodeFrom start .withStatement [object, body]

def switchCase (grammar : Grammar) : Parser Node := do
  let start ← position
  let isDefault ← eatWord "default"
  let test ←
    if isDefault then pure none
    else
      expectWord "case"
      some <$> allowingIn (expression grammar)
  expect .colon
  let body ← many do
    if (← isAtWord "case") || (← isAtWord "default") || (← isAt .closeBrace)
    then return none
    else return some (← grammar.statement)
  nodeFrom start (.switchCase isDefault) (present [test] ++ body)

def switchStatement (grammar : Grammar) : Parser Node := do
  let start ← position
  expectWord "switch"
  let discriminant ← condition grammar
  expect .openBrace
  let cases ← untilMark .closeBrace (switchCase grammar)
  nodeFrom start .switchStatement (discriminant :: cases)

def tryStatement (grammar : Grammar) : Parser Node := do
  let start ← position
  expectWord "try"
  let body ← block grammar
  let handlerStart ← position
  let handler ←
    if ← eatWord "catch" then
      let parameter ←
        if ← eat .openParen then
          let patternStart ← position
          let pattern ← ascribed grammar (← grammar.pattern)
          let parameter ← nodeFrom patternStart .catchParameter [pattern]
          expect .closeParen
          pure (some parameter)
        else pure none
      let body ← block grammar
      some <$> nodeFrom handlerStart .catchClause
        (present [parameter, some body])
    else pure none
  let finalizer ←
    if ← eatWord "finally" then some <$> block grammar else pure none
  require (handler.isSome || finalizer.isSome)
  nodeFrom start .tryStatement (present [some body, handler, finalizer])

/-! ## Statements of typed texts -/

def typeAlias (grammar : Grammar) (start : Nat) : Parser Node := do
  expectWord "type"
  let name ← binding
  let typeParameters ← typeParameters? grammar
  expect .assign
  let type ← grammar.type
  endStatement
  nodeFrom start .typeAlias (present [some name, typeParameters, some type])

def interfaceDeclaration (grammar : Grammar) (start : Nat) : Parser Node := do
  expectWord "interface"
  let name ← binding
  let typeParameters ← typeParameters? grammar
  let item : Parser Node := do
    let itemStart ← position
    let parent ← grammar.leftHandSide
    match parent with
    | .mk .instantiation _ parts => nodeFrom itemStart .interfaceHeritage parts
    | parent =>
      let arguments ← typeArguments? grammar
      nodeFrom itemStart .interfaceHeritage (present [some parent, arguments])
  let parents ←
    if ← eatWord "extends" then
      let first ← item
      let others ← many do
        if ← eat .comma then return some (← item) else return none
      pure (first :: others)
    else pure []
  let bodyStart ← position
  let members ← typeMembers grammar
  let body ← nodeFrom bodyStart .interfaceBody members
  nodeFrom start .interfaceDeclaration
    (present [some name, typeParameters] ++ parents ++ [body])

def enumMember (grammar : Grammar) : Parser Node := do
  let start ← position
  let (name, _) ← propertyKey grammar
  let value ← initializer? grammar
  nodeFrom start .enumMember (present [some name, value])

/-- An enumeration after the words before it. -/
def enumDeclaration (grammar : Grammar) (start : Nat) : Parser Node := do
  expectWord "enum"
  let name ← binding
  expect .openBrace
  let members ← commaList .closeBrace (enumMember grammar)
  nodeFrom start .enumDeclaration (name :: members)

def namespaceBody (grammar : Grammar) : Parser Node := do
  let start ← position
  let statements ← statementsInBraces grammar
  nodeFrom start .namespaceBody statements

/-- A namespace whose name is next. -/
def namespaceRest (grammar : Grammar) (start : Nat) : Parser Node := do
  match (← token).kind with
  | .string _ =>
    let name ← stringLiteral
    let body ←
      if ← isAt .openBrace then some <$> namespaceBody grammar
      else
        endStatement
        pure none
    nodeFrom start .namespaceDeclaration (present [some name, body])
  | _ =>
    let name ← binding
    let inner ← many do
      if ← eat .dot then
        let innerStart ← position
        return some (innerStart, ← binding)
      else return none
    let body ← namespaceBody grammar
    let stop := (← state).lastEnd
    let nested := inner.foldr (fun item (body : Node) =>
      .mk .namespaceDeclaration ⟨item.1, stop⟩ [item.2, body]) body
    nodeFrom start .namespaceDeclaration [name, nested]

/-- Whether the next two words start a declaration on one line. -/
def startsWith (word : String) (accepts : Token → Bool) : Parser Bool := do
  if ← isAtWord word then
    return (← following).any fun token => !token.onNewLine && accepts token
  else return false

def isWordToken (word : String) (token : Token) : Bool :=
  token.kind == .word word false

/-- Whether a token is a name or a string. -/
def isSpaceName (token : Token) : Bool :=
  isNameToken token ||
    match token.kind with
    | .string _ => true
    | _ => false

/-- A declaration of a typed text, if one is next. -/
def typedDeclaration? (grammar : Grammar) (start : Nat)
    (decorators : List Node) : Parser (Option Node) := do
  if !(← context).isTyped then return none
  else if ← startsWith "type" isNameToken then
    return some (← typeAlias grammar start)
  else if ← startsWith "interface" isNameToken then
    return some (← interfaceDeclaration grammar start)
  else if ← startsWith "namespace" isNameToken then
    advance
    return some (← namespaceRest grammar start)
  else if ← startsWith "module" isSpaceName then
    advance
    return some (← namespaceRest grammar start)
  else if ← startsWith "global" (fun token => token.kind == .mark .openBrace) then
    let name ← leaf (.name "global")
    let body ← namespaceBody grammar
    return some (← nodeFrom start .namespaceDeclaration [name, body])
  else if ← isAtWord "enum" then return some (← enumDeclaration grammar start)
  else if ← startsWith "const" (isWordToken "enum") then
    advance
    return some (← enumDeclaration grammar start)
  else if ← startsWith "abstract" (isWordToken "class") then
    advance
    return some (← classFrom grammar start decorators true true)
  else return none

/-- Whether a token can follow `declare`. -/
def isDeclarable (token : Token) : Bool :=
  ["var", "let", "const", "function", "class", "async", "type", "interface",
    "namespace", "module", "global", "enum", "abstract", "import"].any fun word =>
      isWordToken word token

/-- A declaration that gives no values, after `declare`. -/
def ambientDeclaration (grammar : Grammar) (start : Nat)
    (decorators : List Node) : Parser Node := do
  expectWord "declare"
  withContext (fun context => { context with isAmbient := true }) do
    match ← typedDeclaration? grammar start decorators with
    | some declaration => return declaration
    | none =>
      if ← isAtWord "function" then
        functionFrom grammar start .declaration false true
      else if ← isAsyncFunction then
        advance
        functionFrom grammar start .declaration true true
      else if ← isAtWord "class" then
        classFrom grammar start decorators true true
      else
        match ← variableKeyword? with
        | some keyword =>
          passKeyword keyword
          variablesRest grammar start keyword .statement
        | none => fail

/-! ## Declarations -/

/-- A declaration that may stand after `export`. -/
def exportedDeclaration (grammar : Grammar) (decorators : List Node) :
    Parser Node := do
  let start ← position
  let own ← Parser.decorators grammar
  let decorators := decorators ++ own
  match ← typedDeclaration? grammar start decorators with
  | some declaration => return declaration
  | none =>
    if (← context).isTyped && (← startsWith "declare" isDeclarable) then
      ambientDeclaration grammar start decorators
    else if ← isAtWord "class" then
      classFrom grammar start decorators true true
    else if ← isAtWord "function" then
      functionFrom grammar start .declaration false true
    else if ← isAsyncFunction then
      advance
      functionFrom grammar start .declaration true true
    else
      match ← variableKeyword? with
      | some keyword =>
        passKeyword keyword
        variablesRest grammar start keyword .statement
      | none => fail

def exportStatement (grammar : Grammar) (decorators : List Node) :
    Parser Node := do
  let start ← position
  expectWord "export"
  if ← isAtWord "default" then exportDefault grammar start decorators
  else if ← isAt .star then exportAll start
  else if ← isAt .openBrace then exportList start
  else
    let typed := (← context).isTyped
    if typed && (← isAt .assign) then
      advance
      let value ← allowingIn (expression grammar)
      endStatement
      nodeFrom start .exportAssignment [value]
    else if typed && (← startsWith "as" (isWordToken "namespace")) then
      advance
      advance
      let name ← plainName
      endStatement
      nodeFrom start .namespaceExport [name]
    else if typed && (← startsWith "type" fun token =>
        token.kind == .mark .openBrace || token.kind == .mark .star) then
      advance
      if ← isAt .star then exportAll start else exportList start
    else if typed && (← isAtWord "import") then
      advance
      let declaration ← importEquals start
      nodeFrom start .exportNamed [declaration]
    else
      let declaration ← exportedDeclaration grammar decorators
      nodeFrom start .exportNamed [declaration]

def decorated (grammar : Grammar) : Parser Node := do
  let start ← position
  let decorators ← decorators grammar
  if ← isAtWord "export" then exportStatement grammar decorators
  else if (← context).isTyped && (← startsWith "abstract" (isWordToken "class"))
  then
    advance
    classFrom grammar start decorators true true
  else classFrom grammar start decorators true true

/-- An expression that stands as a statement, or a labelled statement. -/
def expressionStatement (grammar : Grammar) : Parser Node := do
  let start ← position
  let label? ← do
    match ← nameHere? with
    | some name => if ← followedBy .colon then pure (some name) else pure none
    | none => pure none
  match label? with
  | some name =>
    let label ← leaf (.label name)
    advance
    let body ← singleStatement grammar
    nodeFrom start .labeled [label, body]
  | none =>
    let expression ← allowingIn (expression grammar)
    endStatement
    nodeFrom start .expressionStatement [expression]

def statement (grammar : Grammar) : Parser Node := do
  let start ← position
  match (← token).kind with
  | .mark .openBrace => block grammar
  | .mark .semicolon => leaf .emptyStatement
  | .mark .at => decorated grammar
  | .word "if" false => ifStatement grammar
  | .word "do" false => doWhile grammar
  | .word "while" false => whileStatement grammar
  | .word "for" false => forStatement grammar
  | .word "break" false => jump "break" .breakStatement
  | .word "continue" false => jump "continue" .continueStatement
  | .word "return" false => returnStatement grammar
  | .word "throw" false => throwStatement grammar
  | .word "with" false => withStatement grammar
  | .word "switch" false => switchStatement grammar
  | .word "try" false => tryStatement grammar
  | .word "debugger" false =>
    advance
    endStatement
    nodeFrom start .debuggerStatement []
  | .word "function" false => functionFrom grammar start .declaration false true
  | .word "class" false => classFrom grammar start [] true true
  | .word "export" false => exportStatement grammar []
  | .word "import" false =>
    if (← followedBy .openParen) || (← followedBy .dot) then
      expressionStatement grammar
    else importStatement
  | .word _ _ =>
    match ← typedDeclaration? grammar start [] with
    | some declaration => return declaration
    | none =>
      if (← context).isTyped && (← startsWith "declare" isDeclarable) then
        ambientDeclaration grammar start []
      else if ← isAsyncFunction then
        advance
        functionFrom grammar start .declaration true true
      else
        match ← variableKeyword? with
        | some keyword =>
          passKeyword keyword
          variablesRest grammar start keyword .statement
        | none => expressionStatement grammar
  | _ => expressionStatement grammar

end Codemod.Parser
