import Codemod.Token.Lexer
import Codemod.Tree.Node

/-!
# Parsers

A parser reads tokens from the front of a text, one ahead, and either fails or
returns a value with the state after it.  Failing restores nothing: `attempt`
is the one place where a failure is turned into an answer and the state before
it is kept.
-/

namespace Codemod

/-- What the grammar allows where a parser stands. -/
structure Context where
  /-- Type annotations are read. -/
  isTyped : Bool
  /-- Markup is read where an expression may stand. -/
  hasMarkup : Bool
  /-- The `in` operator is read as a binary operator. -/
  allowsIn : Bool
  /-- `await` is an operator. -/
  allowsAwait : Bool
  /-- `yield` is an operator. -/
  allowsYield : Bool
  /-- `return` may be used. -/
  allowsReturn : Bool
  /-- Declarations need no values. -/
  isAmbient : Bool
  /-- A conditional type may stand here. -/
  allowsConditionalType : Bool
  /-- An arrow function may have a return type. -/
  allowsArrowType : Bool
  deriving DecidableEq, Repr

/-- What was read that is right only in a literal or only in a pattern. -/
structure Covers where
  /-- Shorthand properties with a value, which only a pattern may have. -/
  shorthands : List Nat
  /-- Spreads with a comma behind them at the end, which no pattern may have. -/
  spreads : List Nat
  deriving DecidableEq, Repr

/-- Where a parser stands in the text. -/
structure ParseState where
  /-- The next token. -/
  token : Token
  /-- The text from the next token on. -/
  here : List Char
  /-- The text after the next token. -/
  rest : List Char
  /-- Where the last token that was read ended. -/
  lastEnd : Nat
  /-- The comments that were passed, last first. -/
  comments : List Span
  /-- What the literals so far decide if they turn out to be patterns. -/
  covers : Covers
  deriving DecidableEq, Repr

def Parser (α : Type) : Type :=
  Context → ParseState → Option (α × ParseState)

namespace Parser

variable {α β : Type}

instance : Monad Parser where
  pure value := fun _ state => some (value, state)
  bind first next := fun context state =>
    match first context state with
    | none => none
    | some (value, state) => next value context state

def fail : Parser α :=
  fun _ _ => none

def require (condition : Bool) : Parser Unit :=
  if condition then pure () else fail

def context : Parser Context :=
  fun context state => some (context, state)

def state : Parser ParseState :=
  fun _ state => some (state, state)

def setState (state : ParseState) : Parser Unit :=
  fun _ _ => some ((), state)

def withContext (change : Context → Context) (parser : Parser α) : Parser α :=
  fun context state => parser (change context) state

/-- The answer of a parser, or nothing and an unchanged state if it fails. -/
def attempt (parser : Parser α) : Parser (Option α) :=
  fun context state =>
    match parser context state with
    | none => some (none, state)
    | some (value, state) => some (some value, state)

/-- What a parser would answer, without reading anything. -/
def lookahead (parser : Parser α) : Parser (Option α) :=
  fun context state =>
    match parser context state with
    | none => some (none, state)
    | some (value, _) => some (some value, state)

/-- The bytes between two places of a text. -/
def bytesBetween (before after : List Char) : Nat :=
  Text.byteLength (before.take (before.length - after.length))

/-- The state at the first token of a text that stands at an offset. -/
def tokenAt (offset lastEnd : Nat) (comments : List Span) (covers : Covers)
    (text : List Char) : Option ParseState := do
  let trivia ← Lexer.skipTrivia .blank offset false comments text
  let (kind, rest) ← Lexer.readKind trivia.rest
  let stop := trivia.offset + bytesBetween trivia.rest rest
  return {
    token := ⟨kind, ⟨trivia.offset, stop⟩, trivia.sawLineBreak⟩
    here := trivia.rest
    rest := rest
    lastEnd := lastEnd
    comments := trivia.comments
    covers := covers
  }

/-- The state after the next token. -/
def stateAfter (state : ParseState) : Option ParseState :=
  tokenAt state.token.span.stop state.token.span.stop state.comments
    state.covers state.rest

def advance : Parser Unit :=
  fun _ state => (stateAfter state).map fun next => ((), next)

def token : Parser Token := do
  return (← state).token

def position : Parser Nat := do
  return (← state).token.span.start

/-- Whether the next token stands on a line of its own. -/
def onNewLine : Parser Bool := do
  return (← state).token.onNewLine

def isAt (mark : Mark) : Parser Bool := do
  return (← token).kind == .mark mark

def eat (mark : Mark) : Parser Bool := do
  if ← isAt mark then
    advance
    return true
  else return false

/-- Pass the mark, which has to be next. -/
def expect (mark : Mark) : Parser Unit := do
  require (← eat mark)

/-- Whether the next token is the word, written without escapes. -/
def isAtWord (word : String) : Parser Bool := do
  return (← token).kind == .word word false

def eatWord (word : String) : Parser Bool := do
  if ← isAtWord word then
    advance
    return true
  else return false

def expectWord (word : String) : Parser Unit := do
  require (← eatWord word)

/-- The token after the next one, if it can be read. -/
def following : Parser (Option Token) :=
  lookahead do
    advance
    token

/-- Whether the token after the next one is the mark. -/
def followedBy (mark : Mark) : Parser Bool := do
  return (← following).any fun token => token.kind == .mark mark

/-- Repeat a parser until it answers nothing, at most `fuel` times. -/
def repeatWithin (body : Parser (Option α)) : (fuel : Nat) → Parser (List α)
  | 0 => fail
  | fuel + 1 => do
    match ← body with
    | none => return []
    | some value => return value :: (← repeatWithin body fuel)

/--
Repeat a parser until it answers nothing.  Each answer takes at least one
character, so the text that remains bounds the repetitions.
-/
def many (body : Parser (Option α)) : Parser (List α) := do
  repeatWithin body ((← state).here.length + 2)

/-- Extend a value until nothing extends it, at most `fuel` times. -/
def extendWithin (step : α → Parser (Option α)) :
    (fuel : Nat) → α → Parser α
  | 0, _ => fail
  | fuel + 1, value => do
    match ← step value with
    | none => return value
    | some value => extendWithin step fuel value

def extend (step : α → Parser (Option α)) (first : α) : Parser α := do
  extendWithin step ((← state).here.length + 2) first

/-- Items up to a closing mark, which is passed. -/
def untilMark (close : Mark) (item : Parser α) : Parser (List α) :=
  many do
    if ← eat close then return none
    else return some (← item)

/-- Items separated by commas up to a closing mark, which is not passed. -/
def commaItems (close : Mark) (item : Parser α) : Parser (List α) :=
  many do
    if ← isAt close then return none
    else
      let value ← item
      if ← eat .comma then return some value
      else
        require (← isAt close)
        return some value

/-- Items separated by commas up to a closing mark, which is passed. -/
def commaList (close : Mark) (item : Parser α) : Parser (List α) := do
  let items ← commaItems close item
  expect close
  return items

/-- A node from an offset to the end of the last token. -/
def nodeFrom (start : Nat) (kind : Kind) (children : List Node) :
    Parser Node := do
  return .mk kind ⟨start, (← state).lastEnd⟩ children

/-- The next token as a node without parts. -/
def leaf (kind : Kind) : Parser Node := do
  let start ← position
  advance
  nodeFrom start kind []

/-- A statement ends at a semicolon, a closing brace, a line break or the end. -/
def canEndStatement : Parser Bool := do
  let token ← token
  return token.onNewLine || token.kind == .endOfText ||
    token.kind == .mark .closeBrace || token.kind == .mark .semicolon

def endStatement : Parser Unit := do
  if ← eat .semicolon then return ()
  else require (← canEndStatement)

/-- Take the first characters of the next token as a token of their own. -/
def shortenTo (kind : TokenKind) (length : Nat) : Parser Unit := do
  let state ← state
  let start := state.token.span.start
  setState { state with
    token := { state.token with kind := kind, span := ⟨start, start + length⟩ }
    rest := state.here.drop length }

/-- Make an opening angle of a shift that starts with one. -/
def splitShift : Parser Unit := do
  match (← token).kind with
  | .mark .shiftLeft => shortenTo (.mark .less) 1
  | .mark .shiftLeftAssign => shortenTo (.mark .less) 1
  | .mark .lessEqual => return ()
  | _ => return ()

end Parser

/-- The parsers that the rest of the grammar is built from. -/
structure Grammar where
  /-- An expression without a comma operator. -/
  assignment : Parser Node
  /-- An operand of a unary or binary operator. -/
  unary : Parser Node
  /-- A chain of members and calls. -/
  leftHandSide : Parser Node
  /-- A chain of members after `new`, without calls. -/
  constructed : Parser Node
  pattern : Parser Node
  statement : Parser Node
  /-- A markup element, up to its last angle. -/
  markup : Parser Node
  type : Parser Node

def Grammar.empty : Grammar where
  assignment := Parser.fail
  unary := Parser.fail
  leftHandSide := Parser.fail
  constructed := Parser.fail
  pattern := Parser.fail
  statement := Parser.fail
  markup := Parser.fail
  type := Parser.fail

/-- One expression or several joined by commas. -/
def Parser.expression (grammar : Grammar) : Parser Node := do
  let first ← grammar.assignment
  let others ← many do
    if ← eat .comma then return some (← grammar.assignment) else return none
  if others.isEmpty then return first
  else nodeFrom first.span.start .sequence (first :: others)

end Codemod
