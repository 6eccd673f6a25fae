import Codemod.Transform.Basic

/-!
# Plain text replacement

A transform that puts one text in place of another wherever it occurs.
-/

namespace Codemod.Transform

/-- Replace every occurrence of a text. -/
def replaceText (name description : String) (paths : List String)
    (part replacement : List Char) : Transform where
  name := name
  description := description
  paths := paths
  changesModule := false
  plan program _ :=
    ⟨(Text.occurrences part program.source).map fun offset =>
      .replace ⟨offset, offset + Text.byteLength part⟩ replacement, []⟩

end Codemod.Transform
