import Codemod.Span

/-!
# Tokens

The tokens of a source text.  Words cover names and keywords alike; the
grammar decides which words are reserved where they stand.  A greater sign is
always a token of its own, because it also closes type arguments.
-/

namespace Codemod

inductive Mark where
  | openBrace | closeBrace
  | openParen | closeParen
  | openBracket | closeBracket
  | dot | ellipsis | semicolon | comma | colon | at | backtick | arrow
  | question | questionDot
  | less | lessEqual | greater
  | equal | notEqual | strictEqual | strictNotEqual
  | plus | minus | star | slash | percent | power
  | increment | decrement
  | shiftLeft
  | bitAnd | bitOr | bitXor | bang | tilde
  | and | or | coalesce
  | assign
  | plusAssign | minusAssign | starAssign | slashAssign | percentAssign
  | powerAssign | shiftLeftAssign
  | bitAndAssign | bitOrAssign | bitXorAssign
  | andAssign | orAssign | coalesceAssign
  deriving DecidableEq, Repr

inductive TokenKind where
  | endOfText
  | mark (mark : Mark)
  /-- A name or keyword; an escaped spelling is never a keyword. -/
  | word (name : String) (isEscaped : Bool)
  | privateName (name : String)
  | number
  | bigint
  | string (value : String)
  deriving DecidableEq, Repr

structure Token where
  kind : TokenKind
  span : Span
  /-- Whether a line break stands between the previous token and this one. -/
  onNewLine : Bool
  deriving DecidableEq, Repr

/-- The marks, each with its spelling, longer spellings first. -/
def Mark.spellings : List (List Char × Mark) := [
  (['*', '*', '='], .powerAssign), (['<', '<', '='], .shiftLeftAssign),
  (['=', '=', '='], .strictEqual), (['!', '=', '='], .strictNotEqual),
  (['&', '&', '='], .andAssign), (['|', '|', '='], .orAssign),
  (['?', '?', '='], .coalesceAssign), (['.', '.', '.'], .ellipsis),
  (['=', '>'], .arrow), (['=', '='], .equal), (['!', '='], .notEqual),
  (['<', '='], .lessEqual), (['<', '<'], .shiftLeft), (['+', '+'], .increment),
  (['-', '-'], .decrement), (['*', '*'], .power), (['&', '&'], .and),
  (['|', '|'], .or), (['?', '?'], .coalesce), (['+', '='], .plusAssign),
  (['-', '='], .minusAssign), (['*', '='], .starAssign),
  (['/', '='], .slashAssign), (['%', '='], .percentAssign),
  (['&', '='], .bitAndAssign), (['|', '='], .bitOrAssign),
  (['^', '='], .bitXorAssign), (['{'], .openBrace), (['}'], .closeBrace),
  (['('], .openParen), ([')'], .closeParen), (['['], .openBracket),
  ([']'], .closeBracket), (['.'], .dot), ([';'], .semicolon), ([','], .comma),
  ([':'], .colon), (['@'], .at), (['\x60'], .backtick), (['?'], .question),
  (['<'], .less), (['>'], .greater), (['+'], .plus), (['-'], .minus),
  (['*'], .star), (['/'], .slash), (['%'], .percent), (['&'], .bitAnd),
  (['|'], .bitOr), (['^'], .bitXor), (['!'], .bang), (['~'], .tilde),
  (['='], .assign)
]

end Codemod
