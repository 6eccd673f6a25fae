/-!
# Print style

How new text is written: quotes, braces, indentation and commas.
-/

namespace Codemod

inductive Quote where
  | single
  | double
  deriving DecidableEq, Repr

namespace Quote

def char : Quote → Char
  | single => '\''
  | double => '"'

def name : Quote → String
  | single => "single"
  | double => "double"

end Quote

structure Style where
  quote : Quote
  /-- A comma ends a pattern that spans several lines. -/
  trailingComma : Bool
  flowObjectCommas : Bool
  /-- A sole parameter of an arrow function keeps its parentheses. -/
  arrowParensAlways : Bool
  arrayBracketSpacing : Bool
  /-- Braces have spaces inside. -/
  objectCurlySpacing : Bool
  /-- The number of spaces of a level, at most 255. -/
  tabWidth : Fin 256
  useTabs : Bool
  deriving DecidableEq, Repr

namespace Style

def standard : Style where
  quote := .single
  trailingComma := true
  flowObjectCommas := true
  arrowParensAlways := true
  arrayBracketSpacing := false
  objectCurlySpacing := true
  tabWidth := 4
  useTabs := false

def indentUnit (style : Style) : List Char :=
  if style.useTabs then ['\t'] else List.replicate style.tabWidth.val ' '

/-- Items with a comma and a space between them. -/
def commaSeparated (items : List (List Char)) : List Char :=
  [',', ' '].intercalate items

def braced (style : Style) (items : List (List Char)) : List Char :=
  if items.isEmpty then ['{', '}']
  else if style.objectCurlySpacing then
    ['{', ' '] ++ commaSeparated items ++ [' ', '}']
  else '{' :: commaSeparated items ++ ['}']

/-- A text in quotes; quotes and backslashes in it have a backslash before them. -/
def quoted (style : Style) (value : List Char) : List Char :=
  let mark := style.quote.char
  let escape (char : Char) : List Char :=
    if char == mark || char == '\\' then ['\\', char] else [char]
  mark :: value.flatMap escape ++ [mark]

end Style

end Codemod
