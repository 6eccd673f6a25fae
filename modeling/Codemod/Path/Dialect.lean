import Codemod.Path.Components

/-!
# Dialects

What a source text is written in, as told by the name of its file.
-/

namespace Codemod

/-- What a text is written in. -/
structure Dialect where
  /-- Type annotations are read. -/
  isTyped : Bool
  /-- Only declarations are given. -/
  isDefinition : Bool
  /-- Markup is read where an expression may stand. -/
  hasMarkup : Bool
  /-- The text is a module rather than a script. -/
  isModule : Bool
  deriving DecidableEq, Repr

namespace Dialect

/-- Untyped text with markup. -/
def script : Dialect :=
  ⟨false, false, true, false⟩

/-- An untyped module with markup. -/
def plain : Dialect :=
  ⟨false, false, true, true⟩

/--
The dialect of a file, by the parts of its name from the last one backwards.
A name that only starts with a point has no extension.
-/
def ofNameParts : (reversed : List String) → Dialect
  | [_] => plain
  | [_, ""] => plain
  | extension :: stem =>
    if extension == "cjs" then script
    else if extension == "ts" then ⟨true, (stem.take 2).contains "d", false, true⟩
    else if extension == "tsx" then ⟨true, false, true, true⟩
    else if extension == "mts" || extension == "cts" then
      let isDefinition := stem.length > 1 && stem.head? == some "d"
      ⟨true, isDefinition, false, extension == "mts"⟩
    else plain
  | [] => plain

def ofPath (path : String) : Dialect :=
  match Path.fileName? path with
  | none => plain
  | some name => ofNameParts (Path.reversedNameParts name)

end Dialect

end Codemod
