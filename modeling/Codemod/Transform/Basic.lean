import Codemod.Edit
import Codemod.Log
import Codemod.Options.Basic
import Codemod.Parser.Program

/-!
# Transforms

A transform looks at one parsed text and answers with the edits that it wants
and a log of its decisions.  It changes nothing by itself.
-/

namespace Codemod

/-- The edits a transform wants and the log of its decisions, both in order. -/
structure Plan where
  edits : List Edit
  log : List Event
  deriving DecidableEq, Repr

namespace Plan

def empty : Plan :=
  ⟨[], []⟩

def append (first second : Plan) : Plan :=
  ⟨first.edits ++ second.edits, first.log ++ second.log⟩

instance : Append Plan := ⟨append⟩

def concat (plans : List Plan) : Plan :=
  plans.foldr append empty

@[simp]
theorem edits_append (first second : Plan) :
    (first ++ second).edits = first.edits ++ second.edits := rfl

@[simp]
theorem log_append (first second : Plan) :
    (first ++ second).log = first.log ++ second.log := rfl

@[simp]
theorem edits_concat (plans : List Plan) :
    (concat plans).edits = plans.flatMap Plan.edits := by
  induction plans with
  | nil => rfl
  | cons first rest ih => simp [concat, append, ← ih]

@[simp]
theorem log_concat (plans : List Plan) :
    (concat plans).log = plans.flatMap Plan.log := by
  induction plans with
  | nil => rfl
  | cons first rest ih => simp [concat, append, ← ih]

def skip (transform : String) (span : Span) (reason : SkipReason) : Plan :=
  ⟨[], [.skipped transform span reason]⟩

end Plan

structure Transform where
  name : String
  description : String
  /-- The transform's own path filter. -/
  paths : List String
  /-- Transforms that change what other modules see run before the others. -/
  changesModule : Bool
  plan : Program → TransformOptions → Plan

namespace TransformOptions

def pathsFor (options : TransformOptions) (transform : Transform) : List String :=
  (options.paths.find? transform.name).getD transform.paths

end TransformOptions

end Codemod
