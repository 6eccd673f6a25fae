import Codemod.Path.Components

/-!
# File trees

The files that a run can see, each at the names that lead to it from the root
of the tree, and the directories that hold them.
-/

namespace Codemod

/-- The names that lead from the root of a tree to an entry. -/
abbrev Location : Type := List String

/-- What a file holds. -/
inductive Content where
  | text (characters : List Char)
  /-- Bytes that are no text, and the lines before the first one that has such bytes. -/
  | bytes (start : List Char)
  deriving DecidableEq, Repr

namespace Content

/-- What can be read line by line. -/
def readable : Content → List Char
  | text characters => characters
  | bytes start => start

end Content

structure FileTree where
  files : List (Location × Content)
  /-- Directories that need not hold a file. -/
  directories : List Location
  deriving DecidableEq, Repr

inductive FileError where
  | missing
  | notDirectory
  | isDirectory
  | notText
  deriving DecidableEq, Repr

namespace FileError

def message : FileError → String
  | missing => "No such file or directory (os error 2)"
  | notDirectory => "Not a directory (os error 20)"
  | isDirectory => "Is a directory (os error 21)"
  | notText => "stream did not contain valid UTF-8"

end FileError

namespace FileTree

def content? (tree : FileTree) (location : Location) : Option Content :=
  (tree.files.find? fun file => file.1 == location).map (·.2)

def isFile (tree : FileTree) (location : Location) : Bool :=
  (tree.content? location).isSome

/-- Every location of a file or a directory that was given. -/
def given (tree : FileTree) : List Location :=
  tree.files.map (·.1) ++ tree.directories

def isDirectory (tree : FileTree) (location : Location) : Bool :=
  location.isEmpty || tree.directories.contains location ||
    tree.given.any fun other => location.isPrefixOf other && location != other

def hasEntry (tree : FileTree) (location : Location) : Bool :=
  tree.isFile location || tree.isDirectory location

/-- The locations strictly below a directory, from the nearest to a given one. -/
def between (directory location : Location) : List Location :=
  if directory.isPrefixOf location then
    (List.range (location.length - directory.length)).map fun count =>
      location.take (directory.length + count + 1)
  else []

/-- Every location strictly below a directory, each once. -/
def entriesBelow (tree : FileTree) (directory : Location) : List Location :=
  (tree.given.flatMap (between directory)).eraseDups

/-- The entries of a directory, each once. -/
def childrenOf (tree : FileTree) (directory : Location) : List Location :=
  (tree.entriesBelow directory).filter fun location =>
    location.length == directory.length + 1

def filesBelow (tree : FileTree) (directory : Location) : List Location :=
  (tree.files.map (·.1)).filter fun location =>
    directory.isPrefixOf location && directory != location

def write (tree : FileTree) (location : Location) (characters : List Char) :
    FileTree :=
  { tree with files := tree.files.map fun file =>
      if file.1 == location then (file.1, .text characters) else file }

def follow (tree : FileTree) (location : Location) :
    List String → Except FileError Location
  | [] => .ok location
  | part :: rest =>
    if tree.isFile location then .error .notDirectory
    else if !tree.isDirectory location then .error .missing
    else if part == "" || part == "." then follow tree location rest
    else if part == ".." then follow tree location.dropLast rest
    else follow tree (location ++ [part]) rest

/-- The location of a path, seen from a directory; something stands there. -/
def locate (tree : FileTree) (directory : Location) (path : String) :
    Except FileError Location :=
  let found : Except FileError Location :=
    match Text.split '/' path with
    | [] => .error .missing
    | [""] => .error .missing
    | "" :: rest => tree.follow [] rest
    | parts => tree.follow directory parts
  match found with
  | .error cause => .error cause
  | .ok location =>
    if tree.hasEntry location then .ok location else .error .missing

/-- The text at the location of an entry. -/
def textAt (tree : FileTree) (location : Location) : Except FileError (List Char) :=
  match tree.content? location with
  | some (.text characters) => .ok characters
  | some (.bytes _) => .error .notText
  | none => .error .isDirectory

def read (tree : FileTree) (directory : Location) (path : String) :
    Except FileError (List Char) :=
  match tree.locate directory path with
  | .error cause => .error cause
  | .ok location => tree.textAt location

end FileTree

end Codemod
