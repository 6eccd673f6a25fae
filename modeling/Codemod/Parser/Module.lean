import Codemod.Parser.Class

/-!
# Imports and exports

The statements that tie modules together.
-/

namespace Codemod.Parser

/-- The name of a module item: a word or a string. -/
def moduleName : Parser Node := do
  match (← token).kind with
  | .string value => leaf (.stringLiteral value)
  | _ => plainName

def importAttributes? : Parser (Option Node) := do
  let start ← position
  let isClause := (← isAtWord "with") ||
    ((← isAtWord "assert") && !(← onNewLine))
  if isClause then
    advance
    expect .openBrace
    let pairs ← commaList .closeBrace do
      let key ← moduleName
      expect .colon
      let value ← stringLiteral
      return [key, value]
    return some (← nodeFrom start .attributes pairs.flatten)
  else return none

/-- The words of an item of an import or export list, up to the next comma. -/
def itemWords : Parser (List Node) :=
  many do
    if (← isAt .comma) || (← isAt .closeBrace) then return none
    else return some (← moduleName)

def isWordNode (word : String) (node : Node) : Bool :=
  node.kind == .name word

/--
The item that a run of words spells: its name, the name it is given if that is
another one, and whether it is marked as a type.
-/
def readItem (isTyped : Bool) : List Node → Option (Node × Option Node)
  | [name] => some (name, none)
  | [name, as, newName] =>
    if isWordNode "as" as then some (name, some newName) else none
  | [type, name] =>
    if isTyped && isWordNode "type" type then some (name, none) else none
  | [type, name, as, newName] =>
    if isTyped && isWordNode "type" type && isWordNode "as" as then
      some (name, some newName)
    else none
  | _ => none

/-- A module name taken as the name of a local binding. -/
def asBinding (name : Node) : Parser Node := do
  match name.kind with
  | .name text =>
    require (isNameIn (← context) text)
    return .mk (.binding text) name.span []
  | _ => fail

def importSpecifier : Parser Node := do
  let start ← position
  let words ← itemWords
  match readItem (← context).isTyped words with
  | none => fail
  | some (imported, some newName) =>
    nodeFrom start .importSpecifier [imported, ← asBinding newName]
  | some (imported, none) =>
    nodeFrom start .importSpecifier [← asBinding imported]

/-- `* as name` of an import. -/
def importNamespace : Parser Node := do
  let start ← position
  expect .star
  expectWord "as"
  let name ← binding
  nodeFrom start .importNamespace [name]

def importClause : Parser (List Node) := do
  let default? ←
    match ← nameHere? with
    | some _ =>
      let start ← position
      let name ← binding
      some <$> nodeFrom start .importDefault [name]
    | none => pure none
  let continues ←
    if default?.isSome then eat .comma else pure true
  if !continues then return present [default?]
  else if ← isAt .star then
    let space ← importNamespace
    return present [default?, some space]
  else
    expect .openBrace
    let specifiers ← commaList .closeBrace importSpecifier
    return present [default?] ++ specifiers

/-- `import name = ...` after its keyword. -/
def importEquals (start : Nat) : Parser Node := do
  let name ← binding
  expect .assign
  let referenceStart ← position
  if (← isAtWord "require") && (← followedBy .openParen) then
    advance
    advance
    let source ← stringLiteral
    expect .closeParen
    let reference ← nodeFrom referenceStart .externalReference [source]
    endStatement
    nodeFrom start .importEquals [name, reference]
  else
    let reference ← entityName
    endStatement
    nodeFrom start .importEquals [name, reference]

/-- Whether the word that is next marks the whole import or export as a type. -/
def marksType : Parser Bool := do
  if (← context).isTyped && (← isAtWord "type") then
    let answer ← lookahead do
      advance
      if (← isAt .openBrace) || (← isAt .star) then return true
      else if !(← nameHere?).isSome then return false
      else if ← isAtWord "from" then
        let next ← following
        return next.any fun token =>
          token.kind == .word "from" false || token.kind == .mark .assign
      else return true
    return answer.getD false
  else return false

/-- The source of an import behind the bindings that it makes. -/
def importSource (start : Nat) (isType : Bool) (clause : List Node) :
    Parser Node := do
  match (← token).kind with
  | .string value =>
    let source ← stringLiteral
    let attributes ← importAttributes?
    endStatement
    nodeFrom start (.importDeclaration value isType)
      (clause ++ present [some source, attributes])
  | _ => fail

def importStatement : Parser Node := do
  let start ← position
  expectWord "import"
  match (← token).kind with
  | .string _ => importSource start false []
  | _ =>
    let isType ← marksType
    if isType then advance
    let isAlias := (← context).isTyped && (← nameHere?).isSome &&
      (← followedBy .assign)
    if isAlias then importEquals start
    else
      let isPhase := ((← isAtWord "defer") && (← followedBy .star)) ||
        ((← isAtWord "source") && (← following).any fun token =>
          isNameToken token && token.kind != .word "from" false)
      if isPhase then advance
      let clause ← importClause
      expectWord "from"
      importSource start isType clause

def exportItem : Parser (Nat × Node × Option Node × Nat) := do
  let start ← position
  let words ← itemWords
  match readItem (← context).isTyped words with
  | none => fail
  | some (name, newName) => return (start, name, newName, (← state).lastEnd)

/-- An item of an export list; without a source its name is a reference. -/
def exportSpecifier (hasSource : Bool)
    (item : Nat × Node × Option Node × Nat) : Parser Node := do
  let (start, name, newName, stop) := item
  let local' ←
    if hasSource then pure name
    else
      match name.kind with
      | .name text =>
        require !keywords.contains text
        pure (.mk (.reference text) name.span [])
      | _ => fail
  return .mk .exportSpecifier ⟨start, stop⟩ (present [some local', newName])

def exportSource? : Parser (List Node) := do
  if ← eatWord "from" then
    let source ← stringLiteral
    let attributes ← importAttributes?
    return present [some source, attributes]
  else return []

def exportAll (start : Nat) : Parser Node := do
  expect .star
  let name ← if ← eatWord "as" then some <$> moduleName else pure none
  let source ← exportSource?
  require !source.isEmpty
  endStatement
  nodeFrom start .exportAll (present [name] ++ source)

def exportList (start : Nat) : Parser Node := do
  expect .openBrace
  let items ← commaList .closeBrace exportItem
  let source ← exportSource?
  let specifiers ← items.mapM (exportSpecifier !source.isEmpty)
  endStatement
  nodeFrom start .exportNamed (specifiers ++ source)

def exportDefault (grammar : Grammar) (start : Nat) (decorators : List Node) :
    Parser Node := do
  expectWord "default"
  let itemStart ← position
  let finish (item : Node) : Parser Node :=
    nodeFrom start .exportDefault [item]
  if ← isAtWord "function" then
    finish (← functionFrom grammar itemStart .declaration false false)
  else if ← isAsyncFunction then
    advance
    finish (← functionFrom grammar itemStart .declaration true false)
  else if (← isAtWord "class") || (← isAt .at) then
    let own ← Parser.decorators grammar
    finish (← classFrom grammar itemStart (decorators ++ own) true false)
  else if (← context).isTyped && (← isAtWord "abstract") &&
      (← following).any (fun token =>
        token.kind == .word "class" false && !token.onNewLine) then
    advance
    finish (← classFrom grammar itemStart decorators true false)
  else if (← context).isTyped && (← isAtWord "interface") &&
      (← following).any (fun token =>
        isNameToken token && !token.onNewLine) then
    finish (← grammar.statement)
  else
    let expression ← allowingIn grammar.assignment
    endStatement
    finish expression

end Codemod.Parser
