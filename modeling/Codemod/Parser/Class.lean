import Codemod.Parser.Function

/-!
# Classes

Class definitions with their members, decorators and, in typed texts,
modifiers and signatures.
-/

namespace Codemod.Parser

structure MemberModifiers where
  isStatic : Bool := false
  isAccessor : Bool := false

/-- Words that modify a member in typed texts and leave no trace. -/
def typedModifiers : List String :=
  ["public", "private", "protected", "readonly", "override", "abstract",
    "declare"]

/-- Read one modifier, if the next word is one. -/
def memberModifier (modifiers : MemberModifiers) :
    Parser (Option MemberModifiers) := do
  match ← wordHere? with
  | none => return none
  | some word =>
    let next ← following
    let modifiesKey := next.any fun token =>
      startsKey token || token.kind == .mark .star
    if word == "static" && !modifiers.isStatic &&
        (modifiesKey || next.any fun token => token.kind == .mark .openBrace)
    then
      if next.any fun token => token.kind == .mark .openBrace then return none
      else
        advance
        return some { modifiers with isStatic := true }
    else if word == "accessor" && !modifiers.isAccessor && modifiesKey &&
        next.any (fun token => !token.onNewLine) then
      advance
      return some { modifiers with isAccessor := true }
    else if (← context).isTyped && typedModifiers.contains word &&
        modifiesKey && next.any (fun token => !token.onNewLine) then
      advance
      return some modifiers
    else return none

/-- The key of a class member; a constructor is never private. -/
def memberKey (grammar : Grammar) : Parser (Node × Bool) := do
  match (← token).kind with
  | .privateName name =>
    require (name != "constructor")
    return (← leaf (.privateName name), false)
  | _ => propertyKey grammar

/-- Whether a key that is not computed spells the name. -/
def spells (name : String) (key : Node) (isComputed : Bool) : Bool :=
  !isComputed &&
    match key.kind with
    | .name word => word == name
    | .stringLiteral value => value == name
    | _ => false

def staticBlock (grammar : Grammar) (start : Nat) : Parser Node := do
  advance
  let statements ← withContext (fun context => { context with
      allowsIn := true
      allowsAwait := true
      allowsYield := false
      allowsReturn := false })
    (statementsInBraces grammar)
  nodeFrom start .staticBlock statements

/-- The value of a field with its ascribed type, up to its end. -/
def fieldRest (grammar : Grammar) (start : Nat) (modifiers : MemberModifiers)
    (decorators : List Node) (key : Node) (isComputed : Bool) :
    Parser Node := do
  require !(spells "constructor" key isComputed)
  require !(modifiers.isStatic && spells "prototype" key isComputed)
  if (← context).isTyped then
    if ← isAt .question then advance
    else if (← isAt .bang) && !(← onNewLine) then advance
  let type ← typeAscription grammar
  let value ←
    withContext (fun context => { context with
        allowsIn := true, allowsAwait := false, allowsYield := false })
      (initializer? grammar)
  endStatement
  let kind :=
    if modifiers.isAccessor then
      Kind.accessorField modifiers.isStatic isComputed
    else Kind.field modifiers.isStatic isComputed
  nodeFrom start kind (decorators ++ present [some key, type, value])

def indexSignature (grammar : Grammar) (start : Nat) : Parser Node := do
  require (← context).isTyped
  expect .openBracket
  let parameterStart ← position
  let name ← plainName
  let type ← typeAscription grammar
  require type.isSome
  let parameter ← nodeFrom parameterStart (.typeForm .namedMember)
    (present [some name, type])
  expect .closeBracket
  let type ← typeAscription grammar
  endStatement
  nodeFrom start (.signature .index) (present [some parameter, type])

/-- A method or a field after its modifiers. -/
def memberRest (grammar : Grammar) (start : Nat) (modifiers : MemberModifiers)
    (decorators : List Node) : Parser Node := do
  let finishMethod (key : Node) (isComputed isAsync isGenerator isPlain : Bool) :
      Parser Node := do
    require (isPlain || modifiers.isStatic || !spells "constructor" key isComputed)
    require !(modifiers.isStatic && spells "prototype" key isComputed)
    let function ← methodFunction grammar isAsync isGenerator
    nodeFrom start (.method modifiers.isStatic isComputed)
      (decorators ++ [key, function])
  let isAsync ← do
    if (← isAtWord "async") && (← following).any (fun token =>
        !token.onNewLine && (startsKey token || token.kind == .mark .star)) then
      advance
      pure true
    else pure false
  if ← eat .star then
    let (key, isComputed) ← memberKey grammar
    finishMethod key isComputed isAsync true false
  else if isAsync then
    let (key, isComputed) ← memberKey grammar
    finishMethod key isComputed true false false
  else if (← isModifier "get") || (← isModifier "set") then
    advance
    let (key, isComputed) ← memberKey grammar
    finishMethod key isComputed false false false
  else
    let (key, isComputed) ← memberKey grammar
    let isMethod ← do
      if (← isAt .openParen) || (← isAt .less) then pure true
      else if (← context).isTyped && (← isAt .question) then
        pure ((← followedBy .openParen) || (← followedBy .less))
      else pure false
    if isMethod then
      let _ ← eat .question
      finishMethod key isComputed false false true
    else fieldRest grammar start modifiers decorators key isComputed

def classMember (grammar : Grammar) : Parser Node := do
  let start ← position
  let decorators ← decorators grammar
  if (← isAtWord "static") && (← followedBy .openBrace) then
    staticBlock grammar start
  else
    let modifiers ← extend memberModifier {}
    match ← attempt (indexSignature grammar start) with
    | some signature => return signature
    | none => memberRest grammar start modifiers decorators

/-- The members of a class in braces; stray semicolons are passed. -/
def classBody (grammar : Grammar) : Parser Node := do
  let start ← position
  expect .openBrace
  let members ← many do
    let _ ← many do
      if ← eat .semicolon then return some () else return none
    if ← eat .closeBrace then return none
    else return some (← classMember grammar)
  nodeFrom start .classBody members

/-- `extends` with what is extended. -/
def heritage? (grammar : Grammar) : Parser (Option Node) := do
  if ← eatWord "extends" then
    let start ← position
    let parent ← grammar.leftHandSide
    match parent with
    | .mk .instantiation _ [expression, arguments] =>
      return some (← nodeFrom start .heritage [expression, arguments])
    | parent =>
      let arguments ← typeArguments? grammar
      return some (← nodeFrom start .heritage
        (present [some parent, arguments]))
  else return none

def implemented (grammar : Grammar) : Parser (List Node) := do
  if !(← context).isTyped then return []
  else if ← eatWord "implements" then
    let item : Parser Node := do
      let start ← position
      let name ← entityName
      let arguments ← typeArguments? grammar
      nodeFrom start .implements (present [some name, arguments])
    let first ← item
    let others ← many do
      if ← eat .comma then return some (← item) else return none
    return first :: others
  else return []

def classFrom (grammar : Grammar) (start : Nat) (decorators : List Node)
    (isDeclaration needsName : Bool) : Parser Node := do
  expectWord "class"
  let isImplements := (← context).isTyped && (← isAtWord "implements")
  let name ←
    if isImplements then pure none
    else
      match ← nameHere? with
      | some _ => some <$> binding
      | none => pure none
  require (!needsName || name.isSome)
  let typeParameters ← typeParameters? grammar
  let heritage ← heritage? grammar
  let implemented ← implemented grammar
  let body ← classBody grammar
  nodeFrom start (.classDefinition isDeclaration)
    (decorators ++ present [name, typeParameters, heritage] ++ implemented ++
      [body])

end Codemod.Parser
