import Codemod.Path.Filter
import Codemod.Transform.Basic

/-!
# Runs

A run of one transform parses a text, plans and carries out the plan.  A
pipeline runs several transforms, each on the text that the one before it left;
the first text that does not parse ends it without a result.
-/

namespace Codemod

structure Output where
  text : List Char
  /-- The edits that were asked for. -/
  edits : List Edit
  isChanged : Bool
  log : List Event
  deriving DecidableEq, Repr

namespace Transform

/-- Run a transform on a text; nothing if the text does not parse. -/
def run (transform : Transform) (dialect : Dialect) (options : TransformOptions)
    (source : List Char) : Option Output :=
  (parseProgram dialect source).map fun program =>
    let plan := transform.plan program options
    let edited := applyEdits source plan.edits
    let isChanged := edited.text != source
    { text := edited.text
      edits := plan.edits
      isChanged := isChanged
      log := plan.log ++ (edited.dropped.map fun edit => .dropped edit.span) ++
        [.finished transform.name plan.edits.length isChanged] }

end Transform

/-- A text that does not parse, at which a pipeline ends. -/
structure ParseFailure where
  text : List Char
  deriving DecidableEq, Repr

structure PipelineOutput where
  text : List Char
  /-- The transforms that changed the text. -/
  applied : List String
  /-- The transforms whose path filter did not let the file pass. -/
  filtered : List String
  /-- The text is another one than the pipeline was given. -/
  isChanged : Bool
  deriving DecidableEq, Repr

/-- A pipeline's result, if every text on the way parsed, and its log. -/
structure PipelineRun where
  output : Except ParseFailure PipelineOutput
  log : List Event

namespace Pipeline

def filterLog (verdict : PathFilter.Verdict) (transform path : String) :
    List Event :=
  verdict.invalid.map Event.invalidFilter ++
    if verdict.isMatch then [] else [.rejected transform path]

/-- Run transforms one after the other on a text that has a path. -/
def run (dialect : Dialect) (options : TransformOptions) (path : String) :
    List Transform → List Char → PipelineRun
  | [], source => ⟨.ok ⟨source, [], [], false⟩, []⟩
  | transform :: rest, source =>
    let verdict := PathFilter.check (options.pathsFor transform) path
    let filtering := filterLog verdict transform.name path
    if !verdict.isMatch then
      let later := run dialect options path rest source
      ⟨later.output.map fun output =>
        { output with filtered := transform.name :: output.filtered },
        filtering ++ later.log⟩
    else
      match transform.run dialect options source with
      | none => ⟨.error ⟨source⟩, filtering⟩
      | some own =>
        let later := run dialect options path rest own.text
        ⟨later.output.map fun output =>
          { output with
            applied :=
              if own.isChanged then transform.name :: output.applied
              else output.applied
            isChanged := output.text != source },
          filtering ++ own.log ++ later.log⟩

end Pipeline

end Codemod
