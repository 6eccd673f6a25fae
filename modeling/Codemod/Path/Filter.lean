import Codemod.Path.Glob
import Codemod.Text.Search

/-!
# Path filters

A list of patterns that a path has to pass.  A pattern with `*`, `?` or `[` is a
glob for the whole path; one that ends in a slash names a directory anywhere
above the file; any other names the last components of the path.
-/

namespace Codemod.PathFilter

/-- Remove every `./` from the front of a text. -/
def trimDots : List Char → List Char
  | '.' :: '/' :: rest => trimDots rest
  | text => text

/-- A path with slashes only and without `./` in front. -/
def normalize (path : List Char) : List Char :=
  trimDots (path.map fun char => if char == '\\' then '/' else char)

def isGlob (pattern : List Char) : Bool :=
  pattern.any fun char => char == '*' || char == '?' || char == '['

/-- Case is ignored and only slashes stand for slashes. -/
def rules : GlobRules :=
  ⟨false, true⟩

/-- Whether a pattern that is no glob names a path or a directory above it. -/
def literalMatches (pattern path : List Char) : Bool :=
  match pattern.reverse with
  | '/' :: reversed => Text.occursIn ('/' :: reversed.reverse ++ ['/']) ('/' :: path)
  | _ => ('/' :: pattern).isSuffixOf ('/' :: path)

/-- The answer of a filter and the invalid globs that were met. -/
structure Verdict where
  isMatch : Bool
  invalid : List String
  deriving DecidableEq, Repr

/-- Try patterns in order on a normalized path until one of them matches. -/
def tryPatterns (path : List Char) : List String → Verdict
  | [] => ⟨false, []⟩
  | first :: rest =>
    let pattern := trimDots first.toList
    if isGlob pattern then
      match Glob.parse? pattern with
      | some parts =>
        if Glob.isMatch rules parts path then ⟨true, []⟩
        else tryPatterns path rest
      | none =>
        let verdict := tryPatterns path rest
        { verdict with invalid := String.ofList pattern :: verdict.invalid }
    else if literalMatches pattern path then ⟨true, []⟩
    else tryPatterns path rest

/-- Whether a path passes a filter; an empty filter lets every path pass. -/
def check (patterns : List String) (path : String) : Verdict :=
  if patterns.isEmpty then ⟨true, []⟩
  else tryPatterns (normalize path.toList) patterns

end Codemod.PathFilter
