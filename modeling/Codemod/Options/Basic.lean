import Codemod.Options.SelfReference
import Codemod.Options.Style

/-!
# Transform options

What a caller chooses for all transforms.
-/

namespace Codemod

/-- Path filters by the name of a transform, in increasing order of the names. -/
abbrev PathTable : Type := List (String × List String)

namespace PathTable

def insert (table : PathTable) (name : String) (filter : List String) :
    PathTable :=
  match table with
  | [] => [(name, filter)]
  | (other, otherFilter) :: rest =>
    if name = other then (name, filter) :: rest
    else if name < other then (name, filter) :: (other, otherFilter) :: rest
    else (other, otherFilter) :: PathTable.insert rest name filter

def find? (table : PathTable) (name : String) : Option (List String) :=
  (List.find? (fun entry => entry.1 == name) table).map (·.2)

end PathTable

structure TransformOptions where
  style : Style
  selfReference : SelfReference
  /-- The class that new class components extend. -/
  componentBase : String
  /-- The module that the class comes from. -/
  componentModule : String
  /-- Path filters in place of the transforms' own. -/
  paths : PathTable
  deriving DecidableEq

namespace TransformOptions

def standard : TransformOptions where
  style := .standard
  selfReference := .this
  componentBase := "Component"
  componentModule := "react"
  paths := []

end TransformOptions

end Codemod
