import Codemod.Files.Tree
import Codemod.Path.Glob

/-!
# Ignore rules

Files of rules that keep entries out of a walk.  A rule is a pattern for paths
below the directory of its file; a rule with `!` in front lets entries in
again.  Within a file the last rule that applies counts, and of several files
the one nearest to the entry.
-/

namespace Codemod

structure IgnoreRule where
  parts : List GlobPart
  /-- The rule lets entries in. -/
  isNegated : Bool
  /-- The rule is for directories only. -/
  onlyDirectories : Bool
  deriving DecidableEq, Repr

namespace Ignore

/-- Slashes are only matched by slashes, and case counts. -/
def rules : GlobRules :=
  ⟨true, true⟩

/-- The parts of a rule's pattern, given the character before it. -/
def parseFrom : (fuel : Nat) → Option Char → List Char → Option (List GlobPart)
  | 0, _, _ => none
  | _ + 1, _, [] => some []
  | fuel + 1, _, '?' :: rest =>
    (parseFrom fuel (some '?') rest).map (.anyChar :: ·)
  | fuel + 1, previous, '*' :: '*' :: rest =>
    if previous.all (· == '/') then
      match rest with
      | [] => some [.deepRun, .run]
      | '/' :: rest => (parseFrom fuel (some '/') rest).map (.deepRun :: ·)
      | _ => (parseFrom fuel (some '*') rest).map (.run :: ·)
    else (parseFrom fuel (some '*') rest).map (.run :: ·)
  | fuel + 1, _, '*' :: rest => (parseFrom fuel (some '*') rest).map (.run :: ·)
  | _ + 1, _, ['\\'] => none
  | fuel + 1, _, '\\' :: char :: rest =>
    (parseFrom fuel (some char) rest).map (.char char :: ·)
  | fuel + 1, _, '[' :: rest =>
    match rest with
    | '!' :: inner => do
      let (inside, after) ← Glob.splitSet inner
      return .noneOf (Glob.members inside) :: (← parseFrom fuel (some ']') after)
    | '^' :: inner => do
      let (inside, after) ← Glob.splitSet inner
      return .noneOf (Glob.members inside) :: (← parseFrom fuel (some ']') after)
    | inner => do
      let (inside, after) ← Glob.splitSet inner
      return .oneOf (Glob.members inside) :: (← parseFrom fuel (some ']') after)
  | fuel + 1, _, char :: rest =>
    (parseFrom fuel (some char) rest).map (.char char :: ·)

/-- Remove white space from the end of a line, unless a backslash keeps it. -/
def trimLine (line : List Char) : List Char :=
  match line.reverse with
  | ' ' :: '\\' :: _ => line
  | reversed => (reversed.dropWhile Char.isWhitespace).reverse

/-- A pattern without its trailing slash, and whether it had one. -/
def splitSlash (pattern : List Char) : List Char × Bool :=
  match pattern.reverse with
  | '/' :: '\\' :: reversed => (reversed.reverse, true)
  | '/' :: reversed => (reversed.reverse, true)
  | _ => (pattern, false)

/-- A pattern as it applies to whole paths: without a slash it applies anywhere. -/
def anchored (isAbsolute : Bool) (pattern : List Char) : List Char :=
  if isAbsolute || pattern.contains '/' || pattern == ['*', '*'] then pattern
  else ['*', '*', '/'] ++ pattern

def parseRule (line : List Char) : Option IgnoreRule :=
  let line := if line.head? == some '#' then [] else trimLine line
  if line.isEmpty then none
  else
    let (isNegated, isAbsolute, pattern) :=
      match line with
      | '\\' :: '!' :: rest => (false, false, '!' :: rest)
      | '\\' :: '#' :: rest => (false, false, '#' :: rest)
      | '!' :: '/' :: rest => (true, true, rest)
      | '!' :: rest => (true, false, rest)
      | '/' :: rest => (false, true, rest)
      | line => (false, false, line)
    let (pattern, onlyDirectories) := splitSlash pattern
    let pattern := anchored isAbsolute pattern
    (parseFrom (pattern.length + 1) none pattern).map fun parts =>
      ⟨parts, isNegated, onlyDirectories⟩

def parse (text : List Char) : List IgnoreRule :=
  let text := if text.head? == some '\uFEFF' then text.drop 1 else text
  (text.splitOn '\n').filterMap parseRule

def applies (rule : IgnoreRule) (path : List Char) (isDirectory : Bool) : Bool :=
  (!rule.onlyDirectories || isDirectory) && Glob.isMatch rules rule.parts path

/-- Whether rules keep a path out or let it in, if they say anything. -/
def decide? (rules : List IgnoreRule) (path : List Char) (isDirectory : Bool) :
    Option Bool :=
  (rules.reverse.find? fun rule => applies rule path isDirectory).map
    fun rule => !rule.isNegated

/-- The directories above a location, from the nearest one to the root. -/
def directoriesAbove (location : Location) : List Location :=
  (List.range location.length).reverse.map location.take

/-- What the ignore file of a name says about an entry, the nearest file first. -/
def decideByFiles? (tree : FileTree) (file : Location)
    (directories : List Location) (location : Location) (isDirectory : Bool) :
    Option Bool :=
  directories.findSome? fun directory => do
    let content ← tree.content? (directory ++ file)
    let path := String.intercalate "/" (location.drop directory.length)
    decide? (parse content.readable) path.toList isDirectory

def isRepository (tree : FileTree) (directory : Location) : Bool :=
  tree.hasEntry (directory ++ [".git"])

/-- The directories of the repository around an entry, from the nearest on. -/
def repositoryDirectories (tree : FileTree) (directories : List Location) :
    List Location :=
  match directories.dropWhile fun directory => !isRepository tree directory with
  | [] => []
  | top :: _ =>
    (directories.takeWhile fun directory => !isRepository tree directory) ++ [top]

/-- Whether an entry is kept out or let in by rules, if they say anything. -/
def verdict? (tree : FileTree) (location : Location) (isDirectory : Bool) :
    Option Bool :=
  let directories := directoriesAbove location
  let repository := repositoryDirectories tree directories
  (decideByFiles? tree [".ignore"] directories location isDirectory).orElse fun _ =>
    (decideByFiles? tree [".gitignore"] repository location isDirectory).orElse
      fun _ =>
        decideByFiles? tree [".git", "info", "exclude"] repository location
          isDirectory

def isHidden (location : Location) : Bool :=
  (location.getLast?.map fun name => name.toList.head? == some '.').getD false

def isVisible (tree : FileTree) (location : Location) : Bool :=
  match verdict? tree location (tree.isDirectory location) with
  | some isIgnored => !isIgnored
  | none => !isHidden location

end Ignore

end Codemod
