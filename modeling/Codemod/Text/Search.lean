import Codemod.Text.Bytes

/-!
# Searching in texts

Splitting at a character, and the places where a part occurs.
-/

namespace Codemod.Text

def split (separator : Char) (text : String) : List String :=
  (text.toList.splitOn separator).map String.ofList

def occursIn (part : List Char) : (text : List Char) → Bool
  | [] => part.isEmpty
  | char :: rest => part.isPrefixOf (char :: rest) || occursIn part rest

/--
The offsets at which a part occurs, in a text that starts at `offset`; after an
occurrence the search goes on behind it.  `skip` characters are passed over
first.
-/
def occurrencesFrom (part : List Char) (offset skip : Nat) :
    (text : List Char) → List Nat
  | [] => []
  | char :: rest =>
    let next := offset + char.utf8Size
    match skip with
    | skip + 1 => occurrencesFrom part next skip rest
    | 0 =>
      if part.isPrefixOf (char :: rest) then
        offset :: occurrencesFrom part next (part.length - 1) rest
      else occurrencesFrom part next 0 rest

/-- The offsets at which a part, which is not empty, occurs in a text. -/
def occurrences (part text : List Char) : List Nat :=
  if part.isEmpty then [] else occurrencesFrom part 0 0 text

end Codemod.Text
