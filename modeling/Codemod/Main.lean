import Codemod.Command.Run

/-!
# Command line

Reads the files around the current directory, carries out the command line on
them and writes back what it changed.
-/

namespace Codemod.Main

/-- The names that lead to a path from the root. -/
def locationOf (path : String) : Location :=
  (Text.split '/' path).filter (· != "")

def pathOf (location : Location) : String :=
  "/" ++ String.intercalate "/" location

/-- The lines before the first one that is no text. -/
def textBefore (bytes : List UInt8) : List Char :=
  let lines := (bytes.splitOn 10).map fun line => String.fromUTF8? ⟨line.toArray⟩
  (lines.takeWhile Option.isSome).reduceOption.flatMap fun line => line.toList ++ ['\n']

def contentOf (bytes : ByteArray) : Content :=
  match String.fromUTF8? bytes with
  | some text => .text text.toList
  | none => .bytes (textBefore bytes.toList)

/-- Add the file at a location to a tree, if it can be read. -/
def loadFile (tree : FileTree) (location : Location) : IO FileTree := do
  try
    let bytes ← IO.FS.readBinFile (pathOf location)
    return { tree with files := tree.files ++ [(location, contentOf bytes)] }
  catch _ => return tree

/-- Add everything below a directory to a tree, installed packages left out. -/
partial def loadDirectory (tree : FileTree) (location : Location) :
    IO FileTree := do
  let mut tree := { tree with directories := tree.directories ++ [location] }
  let directory ← IO.FS.realPath (pathOf location)
  for entry in ← directory.readDir do
    let child := location ++ [entry.fileName]
    if ← entry.path.isDir then
      if entry.fileName != "node_modules" then tree ← loadDirectory tree child
    else tree ← loadFile tree child
  return tree

def loadPath (tree : FileTree) (path : String) : IO FileTree := do
  try
    let real ← IO.FS.realPath path
    let location := locationOf real.toString
    if tree.hasEntry location then return tree
    else if ← real.isDir then loadDirectory tree location
    else loadFile tree location
  catch _ => return tree

/-- The part of an argument before its first component with special characters. -/
def plainPart (argument : String) : String :=
  String.intercalate "/" ((Text.split '/' argument).takeWhile fun part =>
    !PathFilter.isGlob part.toList)

/-- Add the rules that hold above a directory to a tree. -/
def loadRules (tree : FileTree) (directory : Location) : IO FileTree := do
  let mut tree := tree
  for above in Ignore.directoriesAbove directory do
    for file in [[".ignore"], [".gitignore"], [".git", "info", "exclude"]] do
      tree ← loadFile tree (above ++ file)
  return tree

/-- Why a source text does not parse and why a configuration cannot be used. -/
def wording : Command.Wording where
  diagnostics := "parser aborted"
  configFault cause :=
    match cause with
    | .malformed => "malformed JSON"
    | .invalid cause => cause.message.getD "malformed JSON"

def writeChanges (before after : FileTree) : IO Unit := do
  for (location, content) in after.files do
    if before.content? location != some content then
      IO.FS.writeFile (pathOf location) (String.ofList content.readable)

end Codemod.Main

def main (arguments : List String) : IO UInt32 := do
  let start ← IO.monoNanosNow
  let directory := Codemod.Main.locationOf (← IO.currentDir).toString
  let mut tree ← Codemod.Main.loadDirectory ⟨[], []⟩ directory
  tree ← Codemod.Main.loadRules tree directory
  for argument in arguments do
    tree ← Codemod.Main.loadPath tree (Codemod.Main.plainPart argument)
  let outcome :=
    Codemod.Command.execute Codemod.Main.wording ⟨tree, directory⟩ [] arguments
  Codemod.Main.writeChanges tree outcome.tree
  (← IO.getStdout).putStr outcome.stdout
  let elapsed := Codemod.Command.elapsedText ((← IO.monoNanosNow) - start)
  (← IO.getStderr).putStr (outcome.stderr elapsed)
  return outcome.exit.toUInt32
