/-!
# Sets of names

Names in strictly increasing order of their code points, which is also the
order of their UTF-8 bytes.
-/

namespace Codemod.Text

/-- Put a name in its place, unless it is there. -/
def insertName (name : String) : List String → List String
  | [] => [name]
  | first :: rest =>
    if name = first then first :: rest
    else if name < first then name :: first :: rest
    else first :: insertName name rest

/-- The names of a list in increasing order, each once. -/
def nameSet (names : List String) : List String :=
  names.foldr insertName []

end Codemod.Text
