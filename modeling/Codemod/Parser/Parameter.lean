import Codemod.Parser.Pattern

/-!
# Parameters

The parameter lists of functions, methods and function types.
-/

namespace Codemod.Parser

def decorators (grammar : Grammar) : Parser (List Node) :=
  many do
    if ← isAt .at then
      let start ← position
      advance
      let expression ← grammar.leftHandSide
      return some (← nodeFrom start .decorator [expression])
    else return none

/-- The words that make a parameter of a constructor a field. -/
def fieldModifiers : List String :=
  ["public", "private", "protected", "readonly", "override"]

/-- Pass the modifiers before a parameter in a typed text. -/
def parameterModifiers : Parser Unit := do
  let _ ← many do
    let word := (← wordHere?).getD ""
    if (← context).isTyped && fieldModifiers.contains word &&
        (← following).any (fun token => isNameToken token ||
          token.kind == .mark .openBrace || token.kind == .mark .openBracket) then
      advance
      return some ()
    else return none

/-- `this: type` at the front of a parameter list. -/
def thisParameter (grammar : Grammar) : Parser Node := do
  let start ← position
  expectWord "this"
  let type ← typeAscription grammar
  nodeFrom start .thisParameter (present [type])

def parameter (grammar : Grammar) : Parser Node := do
  let start ← position
  if (← context).isTyped && (← isAtWord "this") then thisParameter grammar
  else
    let decorators ← decorators grammar
    if ← eat .ellipsis then
      let pattern ← ascribed grammar (← grammar.pattern)
      require (← isAt .closeParen)
      nodeFrom start .rest [pattern]
    else
      parameterModifiers
      let pattern ← grammar.pattern
      let isOptional ←
        if (← context).isTyped then eat .question else pure false
      let pattern ← ascribed grammar pattern
      let pattern ← defaulted grammar pattern
      nodeFrom start (.parameter isOptional) (decorators ++ [pattern])

def parameterList (grammar : Grammar) : Parser Node := do
  let start ← position
  expect .openParen
  let parameters ← commaList .closeParen (parameter grammar)
  nodeFrom start .parameters parameters

end Codemod.Parser
