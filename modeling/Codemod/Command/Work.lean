import Codemod.Command.Report
import Codemod.Files.Tree
import Codemod.Options.Config
import Codemod.Pipeline

/-!
# Work on files

The files of a run are worked on at the same time.  The work on a file goes in
turns: the file is read and transformed; if it has changed and is to be written,
it is emptied and then written; its status is counted; a line about it is shown.
A turn is done at once, and a schedule says which file has the next turn.  The
files share the tree, the counters and what is shown.
-/

namespace Codemod.Command

/-- Texts that the command shows but does not decide. -/
structure Wording where
  /-- Why a source text does not parse. -/
  diagnostics : String
  /-- Why a configuration cannot be used. -/
  configFault : ConfigError → String

/-- What the work on every file of a run goes by. -/
structure Assignment where
  wording : Wording
  options : TransformOptions
  transforms : List Transform
  directory : Location
  /-- Changed files are written. -/
  isWriting : Bool
  /-- Lines about the files are shown. -/
  isShowing : Bool

/-- How far the work on a file has come. -/
inductive Stage where
  | waiting
  | transformed (location : Location) (output : PipelineOutput)
  | emptied (location : Location) (output : PipelineOutput)
  | settled (status : FileStatus)
  | counted (status : FileStatus)
  | finished (status : FileStatus)
  deriving DecidableEq, Repr

structure Job where
  path : String
  stage : Stage
  deriving DecidableEq, Repr

/-- The report on a file, once the work on it is finished. -/
def Job.report? (job : Job) : Option FileReport :=
  match job.stage with
  | .finished status => some ⟨job.path, status⟩
  | _ => none

/-- Read a file and transform what it holds. -/
def Assignment.examine (assignment : Assignment) (tree : FileTree) (path : String) : Stage :=
  let unread (cause : FileError) : Stage :=
    .settled (.failed ("failed to read file: " ++ cause.message))
  match tree.locate assignment.directory path with
  | .error cause => unread cause
  | .ok location =>
    match tree.textAt location with
    | .error cause => unread cause
    | .ok source =>
      let relative := Path.relativeTo assignment.directory path
      match (Pipeline.run (Dialect.ofPath path) assignment.options relative
          assignment.transforms source).output with
      | .error _ =>
        .settled (.failed ("Failed to parse source: " ++ assignment.wording.diagnostics))
      | .ok output =>
        if !output.isChanged then .settled .unchanged
        else if assignment.isWriting then .transformed location output
        else .settled (.changed output.applied)

/-- The work on all files of a run. -/
structure Work where
  tree : FileTree
  counters : Counters
  /-- The lines that were shown, in their order. -/
  shown : List String
  jobs : List Job
  deriving DecidableEq, Repr

namespace Work

def start (tree : FileTree) (paths : List String) : Work :=
  ⟨tree, .zero, [], paths.map fun path => ⟨path, .waiting⟩⟩

/-- A turn of one of the files. -/
def turn (assignment : Assignment) (work : Work) (index : Nat) : Work :=
  match work.jobs[index]? with
  | none => work
  | some job =>
    let moved (stage : Stage) : List Job := work.jobs.set index { job with stage }
    match job.stage with
    | .waiting => { work with jobs := moved (assignment.examine work.tree job.path) }
    | .transformed location output =>
      { work with
        tree := work.tree.write location []
        jobs := moved (.emptied location output) }
    | .emptied location output =>
      { work with
        tree := work.tree.write location output.text
        jobs := moved (.settled (.changed output.applied)) }
    | .settled status =>
      { work with counters := work.counters.count status, jobs := moved (.counted status) }
    | .counted status =>
      let line := FileReport.line? ⟨job.path, status⟩ assignment.isWriting
      { work with
        shown := work.shown ++ if assignment.isShowing then line.toList else []
        jobs := moved (.finished status) }
    | .finished _ => work

def after (assignment : Assignment) (work : Work) (turns : List Nat) : Work :=
  turns.foldl (turn assignment) work

def reports (work : Work) : List FileReport :=
  work.jobs.filterMap Job.report?

end Work

/-- The turns of a schedule and then, file by file, as many as the work can take. -/
def turns (schedule : List Nat) (files : Nat) : List Nat :=
  schedule ++ (List.range files).flatMap (List.replicate 5)

/-- The work on files when all of it is done. -/
def Work.complete (assignment : Assignment) (tree : FileTree) (files : List String)
    (schedule : List Nat) : Work :=
  (Work.start tree files).after assignment (turns schedule files.length)

end Codemod.Command
