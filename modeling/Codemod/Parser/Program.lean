import Codemod.Parser.Statement
import Codemod.Path.Dialect

/-!
# Programs

The grammar is tied together by depth: the grammar of depth `n + 1` is built
from the grammar of depth `n`, and a text of a given length cannot nest deeper
than a bound in that length.  `parseProgram` reads a whole text.
-/

namespace Codemod

structure Program where
  dialect : Dialect
  source : List Char
  root : Node
  comments : List Span

/-- The grammar of texts that nest at most to a depth. -/
def Grammar.ofDepth : (depth : Nat) → Grammar
  | 0 => .empty
  | depth + 1 =>
    let inner := Grammar.ofDepth depth
    { assignment := Parser.assignment inner
      unary := Parser.unary inner
      leftHandSide := Parser.leftHandSide inner
      constructed := Parser.constructed inner
      pattern := Parser.bindingPattern inner
      statement := Parser.statement inner
      markup := Parser.markupElement inner
      type := Parser.fullType inner }

/-- The rules at the top of a text. -/
def Dialect.context (dialect : Dialect) : Context where
  isTyped := dialect.isTyped
  hasMarkup := dialect.hasMarkup
  allowsIn := true
  allowsAwait := dialect.isModule
  allowsYield := false
  allowsReturn := false
  isAmbient := dialect.isDefinition
  allowsConditionalType := true
  allowsArrowType := true

namespace Parser

/-- The line that names an interpreter at the start of a text. -/
def hashbangLine (source : List Char) : List Char :=
  match source with
  | '#' :: '!' :: _ => source.takeWhile fun char => !Lexer.isLineBreak char
  | _ => []

def statements (grammar : Grammar) : Parser (List Node) :=
  many do
    if (← token).kind == .endOfText then return none
    else return some (← grammar.statement)

end Parser

/-- A depth that no text of this length exceeds. -/
def nestingBound (source : List Char) : Nat :=
  2 * source.length + 16

/-- Read a whole text; nothing if it does not follow the grammar. -/
def parseProgram (dialect : Dialect) (source : List Char) : Option Program := do
  let hashbang := Parser.hashbangLine source
  let offset := Text.byteLength hashbang
  let first ← Parser.tokenAt offset offset [] ⟨[], []⟩ (source.drop hashbang.length)
  let grammar := Grammar.ofDepth (nestingBound source)
  let (statements, last) ←
    Parser.statements grammar dialect.context first
  if last.covers.shorthands.isEmpty then
    let opening : List Node :=
      if hashbang.isEmpty then [] else [.mk .hashbang ⟨0, offset⟩ []]
    some {
      dialect := dialect
      source := source
      root := .mk .program ⟨0, Text.byteLength source⟩
        (opening ++ Parser.markDirectives statements)
      comments := last.comments.reverse }
  else none

end Codemod
