import Codemod.Parser.Class
import Codemod.Parser.Markup

/-!
# Expressions

From literals and members up to assignments and arrow functions.  Operators
bind by level: the operand of one level is an expression of the level above.
-/

namespace Codemod.Parser

/-! ## Literals -/

def regexLiteral : Parser Node := do
  let current ← state
  match Lexer.readRegex (current.here.drop 1) with
  | none => fail
  | some rest =>
    let start := current.token.span.start
    let stop := start + bytesBetween current.here rest
    match tokenAt stop stop current.comments current.covers rest with
    | none => fail
    | some next =>
      setState next
      return .mk .regexLiteral ⟨start, stop⟩ []

/-- A template, whose backquote is next; a tag tolerates broken escapes. -/
def templateLiteral (grammar : Grammar) (isTagged : Bool) : Parser Node := do
  let start ← position
  let (parts, areSound) ← templateParts (allowingIn (expression grammar))
  require (isTagged || areSound)
  nodeFrom start .template parts

/-- Note a shorthand property with a value, which only a pattern may have. -/
def noteShorthand (offset : Nat) : Parser Unit := do
  let current ← state
  setState { current with covers := { current.covers with
    shorthands := offset :: current.covers.shorthands } }

/-- Something spread into a literal that ends at the mark. -/
def spread (grammar : Grammar) (close : Mark) : Parser Node := do
  let start ← position
  expect .ellipsis
  let argument ← allowingIn grammar.assignment
  if (← isAt .comma) && (← followedBy close) then
    let current ← state
    setState { current with covers := { current.covers with
      spreads := start :: current.covers.spreads } }
  nodeFrom start .spread [argument]

def arrayLiteral (grammar : Grammar) : Parser Node := do
  let start ← position
  expect .openBracket
  let elements ← many do
    if ← isAt .closeBracket then return none
    else if ← isAt .comma then
      let gap ← hole
      advance
      return some gap
    else
      let element ←
        if ← isAt .ellipsis then spread grammar .closeBracket
        else allowingIn grammar.assignment
      if ← eat .comma then return some element
      else
        require (← isAt .closeBracket)
        return some element
  expect .closeBracket
  nodeFrom start .array elements

def objectProperty (grammar : Grammar) : Parser Node := do
  let start ← position
  let finishMethod (isAsync isGenerator : Bool) : Parser Node := do
    let (key, isComputed) ← propertyKey grammar
    let function ← methodFunction grammar isAsync isGenerator
    require (function.children.any fun child => child.kind == .functionBody)
    nodeFrom start (.property .method isComputed) [key, function]
  if ← isAt .ellipsis then spread grammar .closeBrace
  else if ← eat .star then finishMethod false true
  else if (← isAtWord "async") && (← following).any (fun token =>
      !token.onNewLine && (startsKey token || token.kind == .mark .star)) then
    advance
    let isGenerator ← eat .star
    finishMethod true isGenerator
  else if (← isModifier "get") || (← isModifier "set") then
    advance
    finishMethod false false
  else
    let name? ← nameHere?
    let next ← following
    let isShorthand := next.any fun token =>
      token.kind == .mark .comma || token.kind == .mark .closeBrace ||
        token.kind == .mark .assign
    match name?, isShorthand with
    | some name, true =>
      let value ← leaf (.reference name)
      if ← isAt .assign then
        noteShorthand start
        advance
        let default ← allowingIn grammar.assignment
        nodeFrom start (.property .shorthand false) [value, default]
      else nodeFrom start (.property .shorthand false) [value]
    | _, _ =>
      let (key, isComputed) ← propertyKey grammar
      if (← isAt .openParen) || (← isAt .less) then
        let function ← methodFunction grammar false false
        require (function.children.any fun child =>
          child.kind == .functionBody)
        nodeFrom start (.property .method isComputed) [key, function]
      else
        expect .colon
        let value ← allowingIn grammar.assignment
        nodeFrom start (.property .pair isComputed) [key, value]

def objectLiteral (grammar : Grammar) : Parser Node := do
  let start ← position
  expect .openBrace
  let properties ← commaList .closeBrace (objectProperty grammar)
  nodeFrom start .object properties

/-! ## Members and calls -/

def callArguments (grammar : Grammar) : Parser (List Node) := do
  expect .openParen
  commaList .closeParen do
    let start ← position
    if ← eat .ellipsis then
      let argument ← allowingIn grammar.assignment
      nodeFrom start .spread [argument]
    else allowingIn grammar.assignment

/-- `super`, which only members and calls may follow. -/
def superExpression : Parser Node := do
  let node ← leaf .superExpression
  require ((← isAt .dot) || (← isAt .openParen) || (← isAt .openBracket))
  return node

/-- `new` with what is constructed, or `new.target`. -/
def construction (grammar : Grammar) : Parser Node := do
  let start ← position
  let keyword ← leaf (.name "new")
  if ← eat .dot then
    require (← isAtWord "target")
    let property ← plainName
    nodeFrom start (.metaProperty "new" "target") [keyword, property]
  else
    let callee ← grammar.constructed
    match callee with
    | .mk .importCall _ _ => fail
    | .mk .chain _ _ => fail
    | callee =>
      let (callee, typeArguments) : Node × List Node :=
        match callee with
        | .mk .instantiation _ [inner, arguments] => (inner, [arguments])
        | callee => (callee, [])
      let arguments ←
        if ← isAt .openParen then callArguments grammar else pure []
      nodeFrom start .construction (callee :: typeArguments ++ arguments)

/-- `import` as an expression: a call or the module's own properties. -/
def importExpression (grammar : Grammar) : Parser Node := do
  let start ← position
  let keyword ← leaf (.name "import")
  let call : Parser Node := do
    expect .openParen
    let source ← allowingIn grammar.assignment
    let options ←
      if ← eat .comma then
        if ← isAt .closeParen then pure none
        else some <$> allowingIn grammar.assignment
      else pure none
    let _ ← eat .comma
    expect .closeParen
    nodeFrom start .importCall (present [some source, options])
  if ← eat .dot then
    if ← isAtWord "meta" then
      let property ← plainName
      nodeFrom start (.metaProperty "import" "meta") [keyword, property]
    else
      require ((← isAtWord "source") || (← isAtWord "defer"))
      advance
      call
  else call

def parenthesized (grammar : Grammar) : Parser Node := do
  let start ← position
  expect .openParen
  let inner ← withContext (fun context => { context with
      allowsIn := true, allowsArrowType := true }) (expression grammar)
  expect .closeParen
  nodeFrom start .parenthesized [inner]

/-- An expression that no operator has touched yet. -/
def primary (grammar : Grammar) : Parser Node := do
  let start ← position
  match (← token).kind with
  | .number => leaf .numberLiteral
  | .bigint => leaf .bigintLiteral
  | .string value => leaf (.stringLiteral value)
  | .mark .backtick => templateLiteral grammar false
  | .mark .slash => regexLiteral
  | .mark .slashAssign => regexLiteral
  | .mark .openParen => parenthesized grammar
  | .mark .openBracket => arrayLiteral grammar
  | .mark .openBrace => objectLiteral grammar
  | .mark .at =>
    let decorators ← decorators grammar
    classFrom grammar start decorators false false
  | .mark .less =>
    require (← context).hasMarkup
    let element ← grammar.markup
    advance
    return element
  | .word "this" false => leaf .thisExpression
  | .word "super" false => superExpression
  | .word "null" false => leaf .nullLiteral
  | .word "true" false => leaf .booleanLiteral
  | .word "false" false => leaf .booleanLiteral
  | .word "function" false => functionFrom grammar start .expression false false
  | .word "class" false => classFrom grammar start [] false false
  | .word "new" false => construction grammar
  | .word "import" false => importExpression grammar
  | .word _ _ =>
    if ← isAsyncFunction then
      advance
      functionFrom grammar start .expression true false
    else reference
  | _ => fail

/-- A member access that a token sequence adds to an object, if any. -/
def memberStep (grammar : Grammar) (object : Node) : Parser (Option Node) := do
  let start := object.span.start
  let named (isOptional : Bool) : Parser Node := do
    match (← token).kind with
    | .word name _ =>
      let property ← plainName
      nodeFrom start (.member name isOptional) [object, property]
    | .privateName _ =>
      let property ← privateName
      nodeFrom start (.privateMember isOptional) [object, property]
    | _ => fail
  let indexed (isOptional : Bool) : Parser Node := do
    expect .openBracket
    let index ← allowingIn (expression grammar)
    expect .closeBracket
    nodeFrom start (.computedMember isOptional) [object, index]
  match (← token).kind with
  | .mark .dot =>
    advance
    return some (← named false)
  | .mark .openBracket => return some (← indexed false)
  | .mark .bang =>
    if (← context).isTyped && !(← onNewLine) then
      advance
      return some (← nodeFrom start .nonNull [object])
    else return none
  | _ => return none

/-- What may follow type arguments, so that they are read as such. -/
def endsTypeArguments : Parser Bool := do
  let token ← token
  match token.kind with
  | .mark .openParen => return true
  | .mark .backtick => return true
  | .mark .less => return false
  | .mark .greater => return false
  | .mark .plus => return false
  | .mark .minus => return false
  | .mark mark =>
    return token.onNewLine ||
      !([Mark.openBracket, .openBrace, .bang, .tilde, .increment, .decrement,
        .slash, .slashAssign, .at].contains mark)
  | .word word _ =>
    return token.onNewLine ||
      ["in", "instanceof", "as", "satisfies", "of"].contains word
  | _ => return token.onNewLine || token.kind == .endOfText

/-- Type arguments where a comparison might stand instead. -/
def expressionTypeArguments? (grammar : Grammar) : Parser (Option Node) := do
  if (← context).isTyped && ((← isAt .less) || (← isAt .shiftLeft)) then
    attempt do
      let arguments ← typeArguments grammar
      require (← endsTypeArguments)
      return arguments
  else return none

/-- A chain being read, with whether a part of it was optional. -/
structure Chain where
  node : Node
  isOptional : Bool

/-- A part of a chain after `?.`. -/
def optionalStep (grammar : Grammar) (chain : Chain) : Parser Chain := do
  let object := chain.node
  let start := object.span.start
  expect .questionDot
  let node ←
    match (← token).kind with
    | .mark .openBracket =>
      advance
      let index ← allowingIn (expression grammar)
      expect .closeBracket
      nodeFrom start (.computedMember true) [object, index]
    | .mark .openParen =>
      let arguments ← callArguments grammar
      nodeFrom start (.call true) (object :: arguments)
    | .word name _ =>
      let property ← plainName
      nodeFrom start (.member name true) [object, property]
    | .privateName _ =>
      let property ← privateName
      nodeFrom start (.privateMember true) [object, property]
    | _ =>
      match ← typeArguments? grammar with
      | some types =>
        let arguments ← callArguments grammar
        nodeFrom start (.call true) (object :: types :: arguments)
      | none => fail
  return ⟨node, true⟩

/-- One more part of a chain: a member, a call, a template or type arguments. -/
def chainStep (grammar : Grammar) (allowsCalls : Bool) (chain : Chain) :
    Parser (Option Chain) := do
  let object := chain.node
  let start := object.span.start
  match (← token).kind with
  | .mark .questionDot =>
    if allowsCalls then return some (← optionalStep grammar chain)
    else fail
  | .mark .openParen =>
    if allowsCalls then
      let arguments ← callArguments grammar
      let (callee, types) : Node × List Node :=
        match object with
        | .mk .instantiation _ [inner, types] => (inner, [types])
        | object => (object, [])
      let node ← nodeFrom start (.call false) (callee :: types ++ arguments)
      return some { chain with node := node }
    else return none
  | .mark .backtick =>
    require !chain.isOptional
    let template ← templateLiteral grammar true
    let parts : List Node :=
      match object with
      | .mk .instantiation _ [inner, types] => [inner, types, template]
      | object => [object, template]
    let node ← nodeFrom start .taggedTemplate parts
    return some { chain with node := node }
  | _ =>
    match ← memberStep grammar object with
    | some node => return some { chain with node := node }
    | none =>
      match ← expressionTypeArguments? grammar with
      | some arguments =>
        let node ← nodeFrom start .instantiation [object, arguments]
        return some { chain with node := node }
      | none => return none

def leftHandSide (grammar : Grammar) : Parser Node := do
  let first ← primary grammar
  let chain ← extend (chainStep grammar true) ⟨first, false⟩
  if chain.isOptional then return .mk .chain chain.node.span [chain.node]
  else return chain.node

/-- A chain of members without calls, as constructed by `new`. -/
def constructed (grammar : Grammar) : Parser Node := do
  let first ← primary grammar
  let chain ← extend (chainStep grammar false) ⟨first, false⟩
  return chain.node

/-! ## Operators -/

/-- Read an operand as a place that an update operator changes. -/
def asUpdated (node : Node) : Parser Node :=
  match node.toSimpleTarget? with
  | some target => return target
  | none => fail

def updated (grammar : Grammar) : Parser Node := do
  let start ← position
  let before : Option String ← do
    if ← isAt .increment then pure (some "++")
    else if ← isAt .decrement then pure (some "--")
    else pure none
  match before with
  | some operator =>
    advance
    let operand ← grammar.unary
    nodeFrom start (.update operator) [← asUpdated operand]
  | none =>
    let operand ← leftHandSide grammar
    if ← onNewLine then return operand
    else if ← isAt .increment then
      let target ← asUpdated operand
      advance
      nodeFrom start (.update "++") [target]
    else if ← isAt .decrement then
      let target ← asUpdated operand
      advance
      nodeFrom start (.update "--") [target]
    else return operand

/-- The operator that stands before an operand. -/
def unaryOperator? : Parser (Option UnaryOperator) := do
  match (← token).kind with
  | .mark .plus => return some .plus
  | .mark .minus => return some .minus
  | .mark .bang => return some .negation
  | .mark .tilde => return some .complement
  | .word "typeof" false => return some .typeOf
  | .word "void" false => return some .discard
  | .word "delete" false => return some .delete
  | _ => return none

/-- Whether `await` is an operator here rather than a name. -/
def isAwait : Parser Bool := do
  if ← isAtWord "await" then return (← context).allowsAwait
  else return false

/-- The type of an assertion, which may be `const`. -/
def assertedType (grammar : Grammar) : Parser Node := do
  let start ← position
  if ← isAtWord "const" then
    let name ← leaf (.reference "const")
    nodeFrom start (.typeForm .reference) [name]
  else grammar.type

def unary (grammar : Grammar) : Parser Node := do
  let start ← position
  match ← unaryOperator? with
  | some operator =>
    advance
    let operand ← grammar.unary
    require !(← isAt .power)
    nodeFrom start (.unary operator) [operand]
  | none =>
    if ← isAwait then
      advance
      let operand ← grammar.unary
      nodeFrom start .awaitExpression [operand]
    else if (← context).isTyped && !(← context).hasMarkup && (← isAt .less) then
      advance
      let type ← assertedType grammar
      expect .greater
      let operand ← grammar.unary
      nodeFrom start .typeAssertion [type, operand]
    else updated grammar

/-- The binary operators of each level, loosest first. -/
def binaryLevels : List (List String) := [
  ["??"], ["||"], ["&&"], ["|"], ["^"], ["&"],
  ["==", "!=", "===", "!=="],
  ["<", ">", "<=", ">=", "instanceof", "in", "as", "satisfies"],
  ["<<", ">>", ">>>"], ["+", "-"], ["*", "/", "%"]
]

/-- The operator that starts with a greater sign, with its length. -/
def angleOperator (text : List Char) : String × Nat :=
  match text with
  | '>' :: '>' :: '>' :: '=' :: _ => (">>>=", 4)
  | '>' :: '>' :: '>' :: _ => (">>>", 3)
  | '>' :: '>' :: '=' :: _ => (">>=", 3)
  | '>' :: '>' :: _ => (">>", 2)
  | '>' :: '=' :: _ => (">=", 2)
  | _ => (">", 1)

/-- The spelling of the operator that is next, if one is. -/
def operatorHere? : Parser (Option String) := do
  let current ← state
  match current.token.kind with
  | .mark .greater => return some (angleOperator current.here).1
  | .mark mark =>
    return (Mark.spellings.find? fun entry => entry.2 == mark).map fun entry =>
      String.ofList entry.1
  | .word word false => return some word
  | _ => return none

def passOperator : Parser Unit := do
  let current ← state
  match current.token.kind with
  | .mark .greater =>
    shortenTo current.token.kind (angleOperator current.here).2
    advance
  | _ => advance

/-- Whether an operator mixes `??` with `||` or `&&` without parentheses. -/
def mixesCoalescing (operator : String) (left right : Node) : Bool :=
  let clashes (node : Node) : Bool :=
    match node.kind with
    | .binary inner =>
      (operator == "??" && (inner == "||" || inner == "&&")) ||
        ((operator == "||" || operator == "&&") && inner == "??")
    | _ => false
  clashes left || clashes right

/-- A private name tested for membership with `in`. -/
def privateIn (operand : Parser Node) : Parser Node := do
  let start ← position
  let name ← privateName
  expectWord "in"
  let object ← operand
  nodeFrom start .privateIn [name, object]

/-- An operator of a level behind its left operand, and the operand behind it. -/
def binaryStep (grammar : Grammar) (operators : List String)
    (operand : Parser Node) (left : Node) : Parser (Option Node) := do
  match ← operatorHere? with
  | none => return none
  | some operator =>
    let start := left.span.start
    if !operators.contains operator then return none
    else if operator == "in" && !(← context).allowsIn then return none
    else if operator == "as" || operator == "satisfies" then
      if (← context).isTyped && !(← onNewLine) then
        advance
        let type ← assertedType grammar
        let kind :=
          if operator == "as" then Kind.asType else Kind.satisfiesType
        return some (← nodeFrom start kind [left, type])
      else return none
    else
      passOperator
      let right ← operand
      require !mixesCoalescing operator left right
      return some (← nodeFrom start (.binary operator) [left, right])

/-- Operators of one level over operands of the level above. -/
def binaryLevel (grammar : Grammar) (operators : List String)
    (operand : Parser Node) : Parser Node := do
  let isRelational := operators.contains "in"
  let first ←
    if isRelational then
      match (← token).kind with
      | .privateName _ =>
        require (← context).allowsIn
        privateIn operand
      | _ => operand
    else operand
  extend (binaryStep grammar operators operand) first

/-- Powers, which group to the right. -/
def powers (grammar : Grammar) : Parser Node := do
  let first ← unary grammar
  let others ← many do
    if ← eat .power then return some (← unary grammar) else return none
  match (first :: others).reverse with
  | [] => return first
  | last :: before =>
    return before.foldl (fun right left =>
      Node.mk (.binary "**") (left.span.cover right.span) [left, right]) last

def binary (grammar : Grammar) : Parser Node :=
  binaryLevels.foldr (fun operators operand =>
    binaryLevel grammar operators operand) (powers grammar)

/-! ## Arrow functions -/

def insideArrow (isAsync : Bool) (context : Context) : Context :=
  { context with
    allowsAwait := context.allowsAwait || isAsync
    allowsYield := false }

/-- The arrow and the body of a function with the given parameters. -/
def arrowRest (grammar : Grammar) (start : Nat) (isAsync : Bool)
    (head : List Node) : Parser Node := do
  require !(← onNewLine)
  expect .arrow
  withContext (insideArrow isAsync) do
    if ← isAt .openBrace then
      let body ← withContext (fun context => { context with
          allowsIn := true
          allowsReturn := true
          allowsArrowType := true
          allowsConditionalType := true })
        (functionBody grammar)
      nodeFrom start (.arrow isAsync false) (head ++ [body])
    else
      let body ← grammar.assignment
      nodeFrom start (.arrow isAsync true) (head ++ [body])

def parenthesizedArrow (grammar : Grammar) : Parser Node := do
  let start ← position
  let isAsync ← eatWord "async"
  let head ← withContext (fun context =>
      { insideArrow isAsync context with allowsIn := true }) do
    let typeParameters ← typeParameters? grammar
    let parameters ← parameterList grammar
    let type ← returnAscription grammar
    return present [typeParameters, some parameters, type]
  require (← isAt .arrow)
  arrowRest grammar start isAsync head

def bareArrow (grammar : Grammar) (start : Nat) (isAsync : Bool) :
    Parser Node := do
  let name ← withContext (insideArrow isAsync) binding
  let parameter : Node := .mk (.parameter false) name.span [name]
  arrowRest grammar start isAsync [.mk .parameters name.span [parameter]]

/-- How sure the tokens make it that an arrow function follows. -/
inductive Likelihood where
  | certain
  | possible
  | excluded

/-- Whether parentheses or angles start an arrow function. -/
def arrowLikelihood : Parser Likelihood := do
  let context ← context
  let answer ← lookahead do
    if ← eat .less then
      let startsParameter := (← nameHere?).isSome || (← isAtWord "const")
      if !context.isTyped || !startsParameter then return Likelihood.excluded
      else if context.hasMarkup then
        let _ ← eatWord "const"
        advance
        if ← eatWord "extends" then
          if (← isAt .assign) || (← isAt .greater) || (← isAt .slash) then
            return .excluded
          else return .certain
        else if (← isAt .comma) || (← isAt .assign) then return .certain
        else return .excluded
      else return .possible
    else if ← eat .openParen then
      if ← eat .closeParen then
        if (← isAt .arrow) || (← isAt .openBrace) then return .certain
        else if (← isAt .colon) && context.isTyped then return .possible
        else return .excluded
      else if (← isAt .openBracket) || (← isAt .openBrace) then
        return .possible
      else if ← eat .ellipsis then return .possible
      else
        let first ← token
        let isName := isNameToken first || first.kind == .word "this" false
        if first.kind == .mark .at then return .possible
        else if !isName then return .excluded
        else
          advance
          if context.isTyped && isNameToken (← token) then return .possible
          else if (← isAt .comma) || (← isAt .assign) || (← isAt .closeParen)
          then return .possible
          else if context.isTyped && ((← isAt .colon) || (← isAt .question))
          then return .possible
          else return .excluded
    else return .excluded
  return answer.getD .excluded

def arrow? (grammar : Grammar) : Parser (Option Node) := do
  let start ← position
  let next ← following
  let isAsync ← do
    if ← isAtWord "async" then
      pure (next.any fun token => !token.onNewLine)
    else pure false
  let name? ← nameHere?
  if isAsync && next.any isNameToken then
    attempt do
      advance
      require (← followedBy .arrow)
      bareArrow grammar start true
  else if name?.isSome && next.any (fun token => token.kind == .mark .arrow) then
    return some (← bareArrow grammar start false)
  else
    let likelihood ←
      if isAsync then
        let answer ← lookahead do
          advance
          arrowLikelihood
        pure (answer.getD .excluded)
      else arrowLikelihood
    match likelihood with
    | .excluded => return none
    | .certain => return some (← parenthesizedArrow grammar)
    | .possible =>
      attempt do
        let node ← parenthesizedArrow grammar
        if !(← context).allowsArrowType then
          let hasType := node.children.any fun child =>
            child.kind == .typeAscription
          require (!hasType || (← isAt .colon))
        return node

/-! ## Assignments -/

def yieldExpression (grammar : Grammar) : Parser Node := do
  let start ← position
  expectWord "yield"
  if ← onNewLine then nodeFrom start (.yieldExpression false) []
  else if ← eat .star then
    let argument ← grammar.assignment
    nodeFrom start (.yieldExpression true) [argument]
  else
    let endsHere ← match (← token).kind with
      | .endOfText => pure true
      | .mark mark =>
        pure ([Mark.closeBrace, .closeParen, .closeBracket, .semicolon, .comma,
          .colon].contains mark)
      | .word "in" false => pure true
      | .word "of" false => pure true
      | _ => pure false
    if endsHere then nodeFrom start (.yieldExpression false) []
    else
      let argument ← grammar.assignment
      nodeFrom start (.yieldExpression false) [argument]

/-- The operators that assign after combining. -/
def compoundOperators : List String := [
  "+=", "-=", "*=", "/=", "%=", "**=", "<<=", ">>=", ">>>=", "&=", "|=", "^=",
  "&&=", "||=", "??="
]

def conditionalRest (grammar : Grammar) (test : Node) : Parser Node := do
  if ← eat .question then
    let positive ← withContext (fun context => { context with
        allowsIn := true, allowsArrowType := false }) grammar.assignment
    expect .colon
    let negative ← grammar.assignment
    nodeFrom test.span.start .conditional [test, positive, negative]
  else return test

def assignment (grammar : Grammar) : Parser Node := do
  let start ← position
  if (← context).allowsYield && (← isAtWord "yield") then
    yieldExpression grammar
  else
    match ← arrow? grammar with
    | some function => return function
    | none =>
      let left ← binary grammar
      let operator := (← operatorHere?).getD ""
      if operator == "=" then
        let target ← asTarget left
        advance
        let value ← grammar.assignment
        nodeFrom start (.assignment operator) [target, value]
      else if compoundOperators.contains operator then
        let target ← asUpdated left
        passOperator
        let value ← grammar.assignment
        nodeFrom start (.assignment operator) [target, value]
      else conditionalRest grammar left

end Codemod.Parser
