import Codemod.Text.Search

/-!
# Components of paths

The parts of a path between its slashes.  Empty parts and single points are
left out, except for a point at the front.  Paths are compared component by
component, so `a/b` comes before `a-b`.
-/

namespace Codemod

inductive PathComponent where
  /-- The slash at the front. -/
  | root
  /-- The point at the front. -/
  | here
  | parent
  | name (text : String)
  deriving DecidableEq, Repr

namespace PathComponent

/-- The place of a kind of component among the others. -/
def rank : PathComponent → Nat
  | root => 0
  | here => 1
  | parent => 2
  | name _ => 3

def text : PathComponent → String
  | root => "/"
  | here => "."
  | parent => ".."
  | name text => text

def precedes (left right : PathComponent) : Bool :=
  left.rank < right.rank || (left.rank == right.rank && left.text < right.text)

/-- The component of a part behind the first one. -/
def ofPart? (part : String) : Option PathComponent :=
  if part == "" || part == "." then none
  else if part == ".." then some parent
  else some (name part)

def ofFirst? (part : String) : Option PathComponent :=
  if part == "." then some here else ofPart? part

end PathComponent

namespace Path

def components (path : String) : List PathComponent :=
  if path == "" then []
  else
    match Text.split '/' path with
    | "" :: rest => .root :: rest.filterMap PathComponent.ofPart?
    | first :: rest =>
      (PathComponent.ofFirst? first).toList ++
        rest.filterMap PathComponent.ofPart?
    | [] => []

/-- Whether a list of components comes before another one or is the same. -/
def notAfter : List PathComponent → List PathComponent → Bool
  | [], _ => true
  | _ :: _, [] => false
  | left :: leftRest, right :: rightRest =>
    left.precedes right || (left == right && notAfter leftRest rightRest)

/-- The name at the end of a path, if it ends in one. -/
def fileName? (path : String) : Option String :=
  match (components path).getLast? with
  | some (.name text) => some text
  | _ => none

def join (path part : String) : String :=
  if path == "" || path.toList.getLast? == some '/' then path ++ part
  else path ++ "/" ++ part

/-- The parts of a name between its points, from the last one backwards. -/
def reversedNameParts (name : String) : List String :=
  (Text.split '.' name).reverse

/-- What follows the last point of a name that does not only start with one. -/
def extension? (path : String) : Option String :=
  match (fileName? path).map reversedNameParts with
  | none => none
  | some [_] => none
  | some [_, ""] => none
  | some parts => parts.head?

/-- Pass over parts that stand for no component. -/
def dropBlank (parts : List String) : List String :=
  parts.dropWhile fun part => part == "" || part == "."

/-- What remains of the parts of a path below the directory of the given names. -/
def below? : (names : List String) → (parts : List String) → Option (List String)
  | [], parts => some (dropBlank parts)
  | name :: names, parts =>
    match dropBlank parts with
    | part :: rest => if part == name then below? names rest else none
    | [] => none

/-- A path relative to a directory, or the path itself if it is not below it. -/
def relativeTo (directory : List String) (path : String) : String :=
  match Text.split '/' path with
  | "" :: parts =>
    match below? directory parts with
    | some rest => String.intercalate "/" rest
    | none => path
  | _ => path

end Path

end Codemod
