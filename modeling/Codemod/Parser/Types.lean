import Codemod.Parser.Parameter
import Codemod.Parser.Template

/-!
# Types

The grammar of types.  Parameters of function types are read like
those of functions, so their names are found by the same walk.
-/

namespace Codemod.Parser

/-- Words that are types of their own. -/
def typeKeywords : List String := [
  "any", "unknown", "never", "void", "null", "undefined", "string", "number",
  "boolean", "bigint", "symbol", "object", "intrinsic", "this"
]

def typeArguments (grammar : Grammar) : Parser Node := do
  splitShift
  let start ← position
  expect .less
  let arguments ← commaList .greater grammar.type
  require !arguments.isEmpty
  nodeFrom start .typeArguments arguments

/-- Type arguments, if an opening angle is next in a typed text. -/
def typeArguments? (grammar : Grammar) : Parser (Option Node) := do
  if (← context).isTyped &&
      ((← isAt .less) || (← isAt .shiftLeft)) then
    return some (← typeArguments grammar)
  else return none

/-- The words that may stand before the name of a type parameter. -/
def typeParameterModifiers : Parser Unit := do
  let _ ← many do
    let word ← wordHere?
    let next ← following
    let isName := next.any fun token =>
      isNameToken token ||
        token.kind == .word "in" false || token.kind == .word "const" false
    if isName && ["in", "out", "const"].contains (word.getD "") then
      advance
      return some ()
    else return none

def typeParameter (grammar : Grammar) : Parser Node := do
  let start ← position
  typeParameterModifiers
  let name ← binding
  let bound ←
    if ← eatWord "extends" then some <$> grammar.type else pure none
  let default ←
    if ← eat .assign then some <$> grammar.type else pure none
  nodeFrom start .typeParameter (present [some name, bound, default])

/-- Type parameters in angles, if an opening angle is next in a typed text. -/
def typeParameters? (grammar : Grammar) : Parser (Option Node) := do
  if (← context).isTyped && (← isAt .less) then
    let start ← position
    advance
    let parameters ← commaList .greater (typeParameter grammar)
    require !parameters.isEmpty
    return some (← nodeFrom start .typeParameters parameters)
  else return none

/-- A type that may be a predicate on a parameter. -/
def returnType (grammar : Grammar) : Parser Node := do
  let start ← position
  let isAssertion ←
    if ← isAtWord "asserts" then
      let next ← following
      pure (next.any fun token => !token.onNewLine &&
        (isNameToken token || token.kind == .word "this" false))
    else pure false
  if isAssertion then
    advance
    let subject ←
      if ← isAtWord "this" then leaf (.typeForm .keyword) else plainName
    let type ← if ← eatWord "is" then some <$> grammar.type else pure none
    nodeFrom start (.typeForm .predicate) (present [some subject, type])
  else
    let subject ← wordHere?
    let next ← following
    let isPredicate :=
      subject.any (fun word => !keywords.contains word || word == "this") &&
        next.any (fun token =>
          token.kind == .word "is" false && !token.onNewLine)
    if isPredicate then
      let subject ←
        if ← isAtWord "this" then leaf (.typeForm .keyword) else plainName
      advance
      let type ← grammar.type
      nodeFrom start (.typeForm .predicate) [subject, type]
    else grammar.type

/-- `: type` after a parameter list, where a predicate may stand. -/
def returnAscription (grammar : Grammar) : Parser (Option Node) := do
  if (← context).isTyped && (← isAt .colon) then
    let start ← position
    advance
    let type ← withContext (fun c => { c with allowsConditionalType := true })
      (returnType grammar)
    return some (← nodeFrom start .typeAscription [type])
  else return none

/-- A name that may be qualified by names before it. -/
def entityName : Parser Node := do
  let start ← position
  let first ← match ← wordHere? with
    | some "this" => leaf .thisExpression
    | some word => leaf (.reference word)
    | none => fail
  extend (fun left => do
    if ← isAt .dot then
      advance
      let name ← plainName
      return some (← nodeFrom start .qualifiedName [left, name])
    else return none) first

/-- A member of an object type, up to its separator. -/
def typeMember (grammar : Grammar) : Parser Node := do
  let start ← position
  let ascribed (children : List (Option Node)) (kind : Kind) : Parser Node := do
    let type ← returnAscription grammar
    nodeFrom start kind (present (children ++ [type]))
  if (← isAt .openParen) || (← isAt .less) then
    let typeParameters ← typeParameters? grammar
    let parameters ← parameterList grammar
    ascribed [typeParameters, some parameters] (.signature .call)
  else if (← isAtWord "new") &&
      ((← followedBy .openParen) || (← followedBy .less)) then
    advance
    let typeParameters ← typeParameters? grammar
    let parameters ← parameterList grammar
    ascribed [typeParameters, some parameters] (.signature .construct)
  else
    let _ ← many do
      if (← isModifier "readonly") then
        advance
        return some ()
      else return none
    let index? ← attempt do
      expect .openBracket
      let parameterStart ← position
      let name ← plainName
      let type ← typeAscription grammar
      require type.isSome
      let parameter ← nodeFrom parameterStart (.typeForm .namedMember)
        (present [some name, type])
      expect .closeBracket
      let type ← typeAscription grammar
      nodeFrom start (.signature .index) (present [some parameter, type])
    match index? with
    | some index => return index
    | none =>
      let isAccessor ← do
        if (← isModifier "get") || (← isModifier "set") then
          advance
          pure true
        else pure false
      let (key, _) ← propertyKey grammar
      let _ ← eat .question
      if isAccessor || (← isAt .openParen) || (← isAt .less) then
        let typeParameters ← typeParameters? grammar
        let parameters ← parameterList grammar
        ascribed [some key, typeParameters, some parameters]
          (.signature .method)
      else
        let type ← typeAscription grammar
        nodeFrom start (.signature .property) (present [some key, type])

def typeMembers (grammar : Grammar) : Parser (List Node) := do
  expect .openBrace
  untilMark .closeBrace do
    let member ← typeMember grammar
    if ← eat .semicolon then return member
    else if ← eat .comma then return member
    else
      require ((← isAt .closeBrace) || (← onNewLine))
      return member

/-- A modifier of a mapped type, with its sign. -/
def mappedModifier (word : String) : Parser Unit := do
  if ((← isAt .plus) || (← isAt .minus)) &&
      ((← following).any fun token => token.kind == .word word false) then
    advance
    advance
  else
    let _ ← eatWord word
    return ()

def mappedType (grammar : Grammar) : Parser Node := do
  let start ← position
  expect .openBrace
  mappedModifier "readonly"
  expect .openBracket
  let parameterStart ← position
  let name ← binding
  expectWord "in"
  let bound ← grammar.type
  let parameter ← nodeFrom parameterStart .typeParameter [name, bound]
  let renamed ← if ← eatWord "as" then some <$> grammar.type else pure none
  expect .closeBracket
  if (← isAt .plus) || (← isAt .minus) then
    advance
    expect .question
  else
    let _ ← eat .question
  let type ← typeAscription grammar
  let _ ← eat .semicolon
  expect .closeBrace
  nodeFrom start (.typeForm .mapped)
    (present [some parameter, renamed, type])

def isMappedType : Parser Bool := do
  let answer ← lookahead do
    expect .openBrace
    if (← isAt .plus) || (← isAt .minus) then
      advance
      isAtWord "readonly"
    else
      let _ ← eatWord "readonly"
      expect .openBracket
      let _ ← plainName
      isAtWord "in"
  return answer.getD false

def tupleElement (grammar : Grammar) : Parser Node := do
  let start ← position
  let named? ← lookahead do
    let _ ← eat .ellipsis
    let _ ← plainName
    let _ ← eat .question
    require (← isAt .colon)
  match named? with
  | some _ =>
    let isRest ← eat .ellipsis
    let nameStart ← position
    let name ← plainName
    let _ ← eat .question
    expect .colon
    let type ← grammar.type
    let member ← nodeFrom nameStart (.typeForm .namedMember) [name, type]
    if isRest then nodeFrom start (.typeForm .rest) [member]
    else return member
  | none =>
    if ← eat .ellipsis then
      let type ← grammar.type
      nodeFrom start (.typeForm .rest) [type]
    else
      let type ← grammar.type
      if ← eat .question then nodeFrom start (.typeForm .optional) [type]
      else return type

/-- A type that stands alone, without operators around it. -/
def primaryType (grammar : Grammar) : Parser Node := do
  let start ← position
  match (← token).kind with
  | .mark .openParen =>
    advance
    let type ← withContext (fun c => { c with allowsConditionalType := true })
      grammar.type
    expect .closeParen
    nodeFrom start (.typeForm .parenthesized) [type]
  | .mark .openBracket =>
    advance
    let elements ← commaList .closeBracket (tupleElement grammar)
    nodeFrom start (.typeForm .tuple) elements
  | .mark .openBrace =>
    if ← isMappedType then mappedType grammar
    else
      let members ← typeMembers grammar
      nodeFrom start (.typeForm .object) members
  | .mark .backtick =>
    let (parts, _) ← templateParts grammar.type
    match parts with
    | [_] =>
      let value ← nodeFrom start .template parts
      nodeFrom start (.typeForm .literal) [value]
    | _ => nodeFrom start (.typeForm .template) parts
  | .mark .minus =>
    advance
    let value ← match (← token).kind with
      | .number => leaf .numberLiteral
      | .bigint => leaf .bigintLiteral
      | _ => fail
    let value ← nodeFrom start (.unary .minus) [value]
    nodeFrom start (.typeForm .literal) [value]
  | .number =>
    let value ← leaf .numberLiteral
    nodeFrom start (.typeForm .literal) [value]
  | .bigint =>
    let value ← leaf .bigintLiteral
    nodeFrom start (.typeForm .literal) [value]
  | .string _ =>
    let value ← stringLiteral
    nodeFrom start (.typeForm .literal) [value]
  | .word word _ =>
    let next ← following
    let isQualified := next.any fun token => token.kind == .mark .dot
    if word == "true" || word == "false" then
      let value ← leaf .booleanLiteral
      nodeFrom start (.typeForm .literal) [value]
    else if typeKeywords.contains word && !isQualified then
      leaf (.typeForm .keyword)
    else if word == "typeof" then
      advance
      if ← isAtWord "import" then
        let type ← grammar.type
        nodeFrom start (.typeForm .query) [type]
      else
        let name ← entityName
        let arguments ←
          if ← onNewLine then pure none else typeArguments? grammar
        nodeFrom start (.typeForm .query) (present [some name, arguments])
    else if word == "import" then
      advance
      expect .openParen
      let source ← grammar.type
      let options ← if ← eat .comma then
          if ← isAt .closeParen then pure none
          else some <$> grammar.assignment
        else pure none
      let _ ← eat .comma
      expect .closeParen
      let names ← many do
        if ← eat .dot then return some (← plainName) else return none
      let arguments ← typeArguments? grammar
      nodeFrom start (.typeForm .importType)
        (present ([some source, options] ++ names.map some ++ [arguments]))
    else if keywords.contains word then fail
    else
      let name ← entityName
      let arguments ←
        if ← onNewLine then pure none else typeArguments? grammar
      nodeFrom start (.typeForm .reference) (present [some name, arguments])
  | _ => fail

def startsType (token : Token) : Bool :=
  match token.kind with
  | .word word _ =>
    !keywords.contains word ||
      ["true", "false", "null", "this", "void", "typeof", "import", "new"].contains
        word
  | .string _ => true
  | .number => true
  | .bigint => true
  | .mark mark =>
    [Mark.openParen, .openBracket, .openBrace, .less, .bitOr, .bitAnd,
      .backtick, .minus, .ellipsis].contains mark
  | _ => false

/-- A type followed by array brackets and index brackets. -/
def postfixType (grammar : Grammar) : Parser Node := do
  let start ← position
  extend (fun type => do
    if (← onNewLine) || !(← isAt .openBracket) then return none
    else
      advance
      if ← eat .closeBracket then
        return some (← nodeFrom start (.typeForm .array) [type])
      else
        let index ← grammar.type
        expect .closeBracket
        return some (← nodeFrom start (.typeForm .indexedAccess) [type, index]))
    (← primaryType grammar)

/-- The operators that a type may start with, each with its place. -/
def typeOperators : Parser (List (Nat × Bool)) :=
  many do
    let start ← position
    let next ← following
    match ← wordHere? with
    | some "infer" =>
      if next.any isNameToken then
        advance
        return some (start, true)
      else return none
    | some word =>
      if ["keyof", "unique", "readonly"].contains word &&
          next.any (fun token => startsType token && !token.onNewLine) then
        advance
        return some (start, false)
      else return none
    | none => return none

def operatorType (grammar : Grammar) : Parser Node := do
  let operators ← typeOperators
  let start ← position
  let inner ←
    if (operators.getLast?.map (·.2)).getD false then
      let name ← binding
      let bound ←
        if ← isAtWord "extends" then
          attempt do
            advance
            let type ← withContext
              (fun c => { c with allowsConditionalType := false }) grammar.type
            require (!(← context).allowsConditionalType || !(← isAt .question))
            return type
        else pure none
      nodeFrom start .typeParameter (present [some name, bound])
    else postfixType grammar
  let stop := (← state).lastEnd
  return operators.foldr (fun operator type =>
    Node.mk (.typeForm (if operator.2 then .infer else .operator))
      ⟨operator.1, stop⟩ [type]) inner

/-- Types joined by a mark, which may also stand before the first. -/
def joinedTypes (mark : Mark) (form : TypeForm) (item : Parser Node) :
    Parser Node := do
  let start ← position
  let isLed ← eat mark
  let first ← item
  let others ← many do
    if ← eat mark then return some (← item) else return none
  if isLed || !others.isEmpty then
    nodeFrom start (.typeForm form) (first :: others)
  else return first

def unionType (grammar : Grammar) : Parser Node :=
  joinedTypes .bitOr .union
    (joinedTypes .bitAnd .intersection (operatorType grammar))

/-- Whether an opening parenthesis starts the parameters of a function type. -/
def startsFunctionType : Parser Bool := do
  if ← isAt .less then return true
  else if !(← isAt .openParen) then return false
  else
    let answer ← lookahead do
      advance
      if (← isAt .closeParen) || (← isAt .ellipsis) then return true
      else
        let hasName ← match (← token).kind with
          | .word word _ =>
            if !keywords.contains word || word == "this" then
              advance
              pure true
            else pure false
          | .mark .openBrace => pure true
          | .mark .openBracket => pure true
          | _ => pure false
        if !hasName then return false
        else if (← isAt .openBrace) || (← isAt .openBracket) then
          return true
        else if (← isAt .colon) || (← isAt .comma) || (← isAt .question) ||
            (← isAt .assign) then return true
        else if ← eat .closeParen then isAt .arrow
        else return false
    return answer.getD false

def functionType (grammar : Grammar) (form : TypeForm) (start : Nat) :
    Parser Node := do
  let typeParameters ← typeParameters? grammar
  let parameters ← parameterList grammar
  let ascriptionStart ← position
  expect .arrow
  let type ← returnType grammar
  let ascription ← nodeFrom ascriptionStart .typeAscription [type]
  nodeFrom start (.typeForm form)
    (present [typeParameters, some parameters, some ascription])

/-- A type, conditional types included. -/
def fullType (grammar : Grammar) : Parser Node := do
  let start ← position
  if ← isAtWord "new" then
    advance
    functionType grammar .constructor start
  else if (← isAtWord "abstract") &&
      ((← following).any fun token => token.kind == .word "new" false) then
    advance
    advance
    functionType grammar .constructor start
  else
    let function? ←
      if ← startsFunctionType then attempt (functionType grammar .function start)
      else pure none
    match function? with
    | some type => return type
    | none =>
      let checked ← unionType grammar
      if (← context).allowsConditionalType && !(← onNewLine) &&
          (← isAtWord "extends") then
        advance
        let bound ← withContext
          (fun c => { c with allowsConditionalType := false }) grammar.type
        expect .question
        let positive ← withContext
          (fun c => { c with allowsConditionalType := true }) grammar.type
        expect .colon
        let negative ← withContext
          (fun c => { c with allowsConditionalType := true }) grammar.type
        nodeFrom start (.typeForm .conditional)
          [checked, bound, positive, negative]
      else return checked

end Codemod.Parser
