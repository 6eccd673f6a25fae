import Codemod.Parser.Basic

/-!
# Names

Which words may name a value, a binding or a property, and the keys of
properties.
-/

namespace Codemod.Parser

/-- Words that are never a name of their own. -/
def keywords : List String := [
  "break", "case", "catch", "class", "const", "continue", "debugger", "default",
  "delete", "do", "else", "enum", "export", "extends", "false", "finally",
  "for", "function", "if", "import", "in", "instanceof", "new", "null",
  "return", "super", "switch", "this", "throw", "true", "try", "typeof", "var",
  "void", "while", "with"
]

/-- Whether a word can be a name under the given rules. -/
def isNameIn (context : Context) (word : String) : Bool :=
  !keywords.contains word &&
    !(word == "await" && context.allowsAwait) &&
    !(word == "yield" && context.allowsYield)

def nameHere? : Parser (Option String) := do
  match (← token).kind with
  | .word word _ =>
    if isNameIn (← context) word then return some word else return none
  | _ => return none

/-- Whether a token can be a name, whatever surrounds it. -/
def isNameToken (token : Token) : Bool :=
  match token.kind with
  | .word word _ => !keywords.contains word
  | _ => false

/-- The text of the next token if it is a word of any sort. -/
def wordHere? : Parser (Option String) := do
  match (← token).kind with
  | .word word _ => return some word
  | _ => return none

def reference : Parser Node := do
  match ← nameHere? with
  | some name => leaf (.reference name)
  | none => fail

def binding : Parser Node := do
  match ← nameHere? with
  | some name => leaf (.binding name)
  | none => fail

/-- A word used as the label of something, keywords included. -/
def plainName : Parser Node := do
  match ← wordHere? with
  | some name => leaf (.name name)
  | none => fail

def privateName : Parser Node := do
  match (← token).kind with
  | .privateName name => leaf (.privateName name)
  | _ => fail

def stringLiteral : Parser Node := do
  match (← token).kind with
  | .string value => leaf (.stringLiteral value)
  | _ => fail

/-- The key of a property, and whether it is computed from an expression. -/
def propertyKey (grammar : Grammar) : Parser (Node × Bool) := do
  match (← token).kind with
  | .word name _ => return (← leaf (.name name), false)
  | .string value => return (← leaf (.stringLiteral value), false)
  | .number => return (← leaf .numberLiteral, false)
  | .bigint => return (← leaf .bigintLiteral, false)
  | .mark .openBracket =>
    advance
    let key ← withContext (fun c => { c with allowsIn := true })
      grammar.assignment
    expect .closeBracket
    return (key, true)
  | _ => fail

/-- Whether a token can begin the key of a property. -/
def startsKey (token : Token) : Bool :=
  match token.kind with
  | .word _ _ => true
  | .string _ => true
  | .number => true
  | .bigint => true
  | .privateName _ => true
  | .mark .openBracket => true
  | _ => false

/-- Whether the next word only modifies a key that follows it. -/
def isModifier (word : String) : Parser Bool := do
  if ← isAtWord word then
    return (← following).any startsKey
  else return false

end Codemod.Parser
