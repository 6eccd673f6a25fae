import Codemod.Files.Tree
import Codemod.Path.Glob

/-!
# Expanding globs

The entries of a file tree that a glob pattern names.  The pattern is taken
component by component: a component without special characters is followed
as it stands, `**` reaches every entry below a directory, and any other
component is compared with the names in a directory.
-/

namespace Codemod

/-- An entry of a tree and the path that leads to it. -/
structure Found where
  path : String
  location : Location
  deriving DecidableEq, Repr

namespace Glob

/-- Case counts, and a component is compared as a whole. -/
def fileRules : GlobRules :=
  ⟨true, false⟩

def plainText? (parts : List GlobPart) : Option String :=
  (parts.mapM fun (part : GlobPart) =>
    match part with
    | .char value => some value
    | _ => none).map String.ofList

/-- Whether a component stands for any number of components. -/
def isDeep (parts : List GlobPart) : Bool :=
  parts.contains .deepRun

def nameMatches (parts : List GlobPart) (name : String) : Bool :=
  isMatch fileRules parts name.toList

def entryMatches (parts : List GlobPart) (location : Location) : Bool :=
  (location.getLast?).any (nameMatches parts)

/-- A path with one more part, where the current directory is not written. -/
def extend (path part : String) : String :=
  if Path.components path == [.here] then part else Path.join path part

def extendAll (path : String) (names : List String) : String :=
  names.foldl extend path

/-- The special names that a component with a point in front stands for. -/
def specialNames (parts : List GlobPart) : List String :=
  if parts.head? == some (.char '.') then
    [".", ".."].filter (nameMatches parts)
  else []

def specialLocation (location : Location) (name : String) : Location :=
  if name == ".." then location.dropLast else location

/-- The entry that a plain component leads to, if there is one. -/
def plainStep (tree : FileTree) (found : Found) (name : String) : List Found :=
  let path := extend found.path name
  if name == "." || name == ".." || name == "" then
    if tree.isDirectory found.location then
      [⟨path, specialLocation found.location name⟩]
    else []
  else if tree.hasEntry (found.location ++ [name]) then
    [⟨path, found.location ++ [name]⟩]
  else []

/-- The entries below a directory that match a component, at any depth. -/
def deepStep (tree : FileTree) (found : Found) (parts : List GlobPart) :
    List Found :=
  ((tree.entriesBelow found.location).filter (entryMatches parts)).map
    fun location => ⟨extendAll found.path (location.drop found.location.length), location⟩

def directoriesBelow (tree : FileTree) (found : Found) : List Found :=
  ((tree.entriesBelow found.location).filter tree.isDirectory).map
    fun location => ⟨extendAll found.path (location.drop found.location.length), location⟩

def nameStep (tree : FileTree) (found : Found) (parts : List GlobPart) :
    List Found :=
  (((tree.childrenOf found.location).filter (entryMatches parts)).map
    fun location => ⟨extendAll found.path (location.drop found.location.length), location⟩) ++
    ((specialNames parts).map fun name =>
      ⟨Path.join found.path name, specialLocation found.location name⟩)

/-- The entries that components lead to; `afterDeep` tells that `**` stands before. -/
def expandFrom (tree : FileTree) :
    (afterDeep : Bool) → List (List GlobPart) → Found → List Found
  | true, [], found => directoriesBelow tree found
  | false, [], found => [found]
  | afterDeep, parts :: rest, found =>
    if isDeep parts then expandFrom tree true rest found
    else if afterDeep then
      (if tree.isDirectory found.location then deepStep tree found parts else []).flatMap
        (expandFrom tree false rest)
    else
      match plainText? parts with
      | some name => (plainStep tree found name).flatMap (expandFrom tree false rest)
      | none =>
        (if tree.isDirectory found.location then nameStep tree found parts
          else []).flatMap (expandFrom tree false rest)

/-- The components of a pattern; nothing after a slash at the end. -/
def splitComponents (pattern : List Char) : List (List Char) :=
  let components := pattern.splitOn '/'
  match components.reverse with
  | [] :: reversed => reversed.reverse
  | _ => components

def expand (tree : FileTree) (directory : Location) (pattern : List Char) :
    List Found :=
  let (start, relative) : Found × List Char :=
    match pattern with
    | '/' :: rest => (⟨"/", []⟩, rest)
    | _ => (⟨".", directory⟩, pattern)
  let needsDirectory := pattern.getLast? == some '/'
  match parse? pattern, (splitComponents relative).mapM parse? with
  | some _, some components =>
    (expandFrom tree false components start).filter fun found =>
      !needsDirectory || tree.isDirectory found.location
  | _, _ => []

end Glob

end Codemod
