import Codemod.Parser.Name

/-!
# Patterns

Patterns that declare names, and the reading of an expression as a pattern
that assigns to them.
-/

namespace Codemod

namespace Parser

/-- Read a part in which `in` is an operator. -/
def allowingIn {α : Type} (parser : Parser α) : Parser α :=
  withContext (fun context => { context with allowsIn := true }) parser

def present (nodes : List (Option Node)) : List Node :=
  nodes.filterMap id

/-- `: type`, if a colon is next in a typed text. -/
def typeAscription (grammar : Grammar) : Parser (Option Node) := do
  if (← context).isTyped && (← isAt .colon) then
    let start ← position
    advance
    let type ← grammar.type
    return some (← nodeFrom start .typeAscription [type])
  else return none

/-- A pattern with the type ascribed to it, which it then covers. -/
def ascribed (grammar : Grammar) (pattern : Node) : Parser Node := do
  match ← typeAscription grammar with
  | none => return pattern
  | some type =>
    return .mk pattern.kind (pattern.span.cover type.span)
      (pattern.children ++ [type])

/-- `= value`, if it is there. -/
def initializer? (grammar : Grammar) : Parser (Option Node) := do
  if ← eat .assign then some <$> allowingIn grammar.assignment
  else return none

/-- A pattern with its default, if it has one. -/
def defaulted (grammar : Grammar) (pattern : Node) : Parser Node := do
  match ← initializer? grammar with
  | some value =>
    nodeFrom pattern.span.start .patternDefault [pattern, value]
  | none => return pattern

def patternElement (grammar : Grammar) : Parser Node := do
  defaulted grammar (← grammar.pattern)

def patternProperty (grammar : Grammar) : Parser Node := do
  let start ← position
  let name? ← nameHere?
  let next ← following
  let isPair := next.any fun token => token.kind == .mark .colon
  match name?, isPair with
  | some name, false =>
    let binding ← leaf (.binding name)
    let value ← defaulted grammar binding
    nodeFrom start (.patternProperty true false) [value]
  | _, _ =>
    let (key, isComputed) ← propertyKey grammar
    expect .colon
    let value ← patternElement grammar
    nodeFrom start (.patternProperty false isComputed) [key, value]

/-- The last element of a pattern, which takes what remains. -/
def restElement (argument : Parser Node) : Parser Node := do
  let start ← position
  expect .ellipsis
  let argument ← argument
  nodeFrom start .rest [argument]

/-- A property of an object pattern, or the rest at its end. -/
def patternItem (grammar : Grammar) : Parser Node := do
  if ← isAt .ellipsis then
    let rest ← restElement binding
    require (← isAt .closeBrace)
    return rest
  else patternProperty grammar

def objectPattern (grammar : Grammar) : Parser Node := do
  let start ← position
  expect .openBrace
  let properties ← commaItems .closeBrace (patternItem grammar)
  expect .closeBrace
  nodeFrom start .objectPattern properties

/-- A gap in a list of elements. -/
def hole : Parser Node := do
  let start ← position
  return .mk .hole ⟨start, start⟩ []

def arrayPattern (grammar : Grammar) : Parser Node := do
  let start ← position
  expect .openBracket
  let elements ← many do
    if ← isAt .closeBracket then return none
    else if ← isAt .comma then
      let gap ← hole
      advance
      return some gap
    else if ← isAt .ellipsis then
      let rest ← restElement grammar.pattern
      require (← isAt .closeBracket)
      return some rest
    else
      let element ← patternElement grammar
      if ← eat .comma then return some element
      else
        require (← isAt .closeBracket)
        return some element
  expect .closeBracket
  nodeFrom start .arrayPattern elements

def bindingPattern (grammar : Grammar) : Parser Node := do
  match (← token).kind with
  | .mark .openBrace => objectPattern grammar
  | .mark .openBracket => arrayPattern grammar
  | _ => binding

end Parser

namespace Node

/-- Whether an expression alone can be assigned to. -/
def isSimpleTarget (node : Node) : Bool :=
  match node.kind with
  | .reference _ => true
  | .member _ isOptional => !isOptional
  | .computedMember isOptional => !isOptional
  | .privateMember isOptional => !isOptional
  | _ => false

/-- Whether a type wrapper stands around something that can be assigned to. -/
def isWrappedTarget : Node → Bool
  | mk .asType _ (inner :: _) => isWrappedTarget inner
  | mk .satisfiesType _ (inner :: _) => isWrappedTarget inner
  | mk .nonNull _ (inner :: _) => isWrappedTarget inner
  | mk .typeAssertion _ [_, inner] => isWrappedTarget inner
  | mk .parenthesized _ [inner] => isWrappedTarget inner
  | node => node.isSimpleTarget

/-- Read an expression as a single place to assign to; parentheses fall away. -/
def toSimpleTarget? : Node → Option Node
  | mk .parenthesized _ [inner] => toSimpleTarget? inner
  | node =>
    if node.isWrappedTarget then some (mk .target node.span [node]) else none

mutual

/-- Read an expression as something to assign to. -/
def toTarget? : Node → Option Node
  | mk .array span elements => do
    return mk .arrayTarget span (← toElements? elements)
  | mk .object span properties => do
    return mk .objectTarget span (← toProperties? properties)
  | node => node.toSimpleTarget?

/-- Read an expression as a target with an optional default. -/
def toDefaulted? : Node → Option Node
  | mk (.assignment "=") span [target, value] =>
    some (mk .targetDefault span [target, value])
  | mk .array span elements => do
    return mk .arrayTarget span (← toElements? elements)
  | mk .object span properties => do
    return mk .objectTarget span (← toProperties? properties)
  | node => node.toSimpleTarget?

/-- Read the elements of an array literal as targets; a spread comes last. -/
def toElements? : List Node → Option (List Node)
  | [] => some []
  | [mk .spread span [argument]] => do
    return [mk .targetRest span [← toTarget? argument]]
  | mk .hole span children :: rest => do
    return mk .hole span children :: (← toElements? rest)
  | element :: rest => do
    return (← toDefaulted? element) :: (← toElements? rest)

/-- Read the properties of an object literal as targets; a spread comes last. -/
def toProperties? : List Node → Option (List Node)
  | [] => some []
  | [mk .spread span [argument]] => do
    return [mk .targetRest span [← toSimpleTarget? argument]]
  | mk (.property .pair isComputed) span [key, value] :: rest => do
    let value ← toDefaulted? value
    return mk (.targetProperty isComputed) span [key, value] ::
      (← toProperties? rest)
  | mk (.property .shorthand _) span children :: rest => do
    return mk .targetShorthand span children :: (← toProperties? rest)
  | _ => none

end

/-- The shorthand properties with a value that a target makes legitimate. -/
def coveredOffsets : Node → List Nat :=
  fold fun kind span children =>
    match kind, children with
    | .targetShorthand, [_, _] => [span.start]
    | .targetDefault, (_, offsets) :: _ => offsets
    | .arrayTarget, _ => children.flatMap (·.2)
    | .objectTarget, _ => children.flatMap (·.2)
    | .targetProperty _, _ => children.flatMap (·.2)
    | .targetRest, _ => children.flatMap (·.2)
    | _, _ => []

def restOffsets : Node → List Nat :=
  fold fun kind span children =>
    let inner := children.flatMap (·.2)
    match kind with
    | .targetRest => span.start :: inner
    | _ => inner

end Node

namespace Parser

def asTarget (node : Node) : Parser Node := do
  match node.toTarget? with
  | none => fail
  | some target =>
    let state ← state
    let covered := target.coveredOffsets
    let rests := target.restOffsets
    require !(state.covers.spreads.any rests.contains)
    setState { state with covers := { state.covers with
      shorthands := state.covers.shorthands.filter fun offset =>
        !covered.contains offset } }
    return target

end Parser

end Codemod
