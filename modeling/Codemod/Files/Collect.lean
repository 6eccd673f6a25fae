import Codemod.Files.Expand
import Codemod.Files.Ignore
import Codemod.Path.Filter
import Codemod.Sorting

/-!
# Collecting files

The source files that patterns name, in the order of their paths and each path
once.  A glob is expanded; any other pattern is a file or a directory whose
files are taken, except for hidden and ignored ones below it.
-/

namespace Codemod.Files

def sourceExtensions : List String :=
  ["js", "jsx", "mjs", "cjs", "ts", "tsx"]

/-- Whether a path names a source file that is not an installed package's. -/
def isSource (path : String) : Bool :=
  (Path.extension? path).any sourceExtensions.contains &&
    !(Path.components path).contains (.name "node_modules")

/-- Whether a walk from a directory reaches a file below it. -/
def isReached (tree : FileTree) (directory file : Location) : Bool :=
  (FileTree.between directory file).all (Ignore.isVisible tree)

def walk (tree : FileTree) (directory : Location) (path : String) :
    List String :=
  match tree.locate directory path with
  | .error _ => []
  | .ok location =>
    if tree.isFile location then [path]
    else
      ((tree.filesBelow location).filter (isReached tree location)).map
        fun file => (file.drop location.length).foldl Path.join path

def expandPattern (tree : FileTree) (directory : Location) (pattern : String) :
    List String :=
  let found :=
    if PathFilter.isGlob pattern.toList then
      (Glob.expand tree directory pattern.toList).map Found.path
    else walk tree directory pattern
  found.filter isSource

/-- Whether a path comes before another one or has the same components. -/
def pathNotAfter (left right : String) : Bool :=
  Path.notAfter (Path.components left) (Path.components right)

/-- Leave out paths with the components of the path before them. -/
def dropRepeats : List String → List String
  | [] => []
  | path :: rest =>
    match dropRepeats rest with
    | [] => [path]
    | next :: others =>
      if Path.components path == Path.components next then path :: others
      else path :: next :: others

def collect (tree : FileTree) (directory : Location) (patterns : List String) :
    List String :=
  dropRepeats (sortBy pathNotAfter
    (patterns.flatMap (expandPattern tree directory)))

end Codemod.Files
