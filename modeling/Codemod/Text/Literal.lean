import Codemod.Text.EscapedTable
import Codemod.Text.Identifier

/-!
# Text literals

Texts in double quotes as diagnostics show them: quotes, backslashes and
characters that do not show by themselves are escaped.
-/

namespace Codemod.Text

/-- Whether a character is written by its number. -/
def isEscaped (char : Char) : Bool :=
  char.toNat < 0x20 || char.toNat == 0x7f ||
    (char.toNat ≥ 0x80 && inRuns escapedRuns (char.toNat - 0x80))

def literalChar (char : Char) : List Char :=
  if char == '"' then ['\\', '"']
  else if char == '\\' then ['\\', '\\']
  else if char == '\n' then ['\\', 'n']
  else if char == '\r' then ['\\', 'r']
  else if char == '\t' then ['\\', 't']
  else if char == '\x00' then ['\\', '0']
  else if isEscaped char then
    ['\\', 'u', '{'] ++ Nat.toDigits 16 char.toNat ++ ['}']
  else [char]

def literal (text : String) : String :=
  String.ofList ('"' :: text.toList.flatMap literalChar ++ ['"'])

def literals (texts : List String) : String :=
  String.intercalate ", " (texts.map literal)

end Codemod.Text
