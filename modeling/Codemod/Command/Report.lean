import Codemod.Command.Arguments
import Codemod.Json.Printer
import Codemod.Registry

/-!
# Reports

What the command says about a run and about the transforms it knows, as lines
for people or as one JSON document.
-/

namespace Codemod.Command

inductive FileStatus where
  | changed (applied : List String)
  | unchanged
  | failed (message : String)
  deriving DecidableEq, Repr

structure FileReport where
  path : String
  status : FileStatus
  deriving DecidableEq, Repr

namespace FileReport

def isChanged (report : FileReport) : Bool :=
  match report.status with
  | .changed _ => true
  | _ => false

def isUnchanged (report : FileReport) : Bool :=
  report.status == .unchanged

def isFailed (report : FileReport) : Bool :=
  match report.status with
  | .failed _ => true
  | _ => false

def encode (report : FileReport) : Json :=
  let details : List (String × Json) :=
    match report.status with
    | .changed [] => [("status", .string "changed")]
    | .changed applied =>
      [("status", .string "changed"), ("applied", .strings applied)]
    | .unchanged => [("status", .string "unchanged")]
    | .failed message => [("status", .string "error"), ("error", .string message)]
  .object (("path", .string report.path) :: details)

/-- The line about a file, if there is anything to say. -/
def line? (report : FileReport) (isWriting : Bool) : Option String :=
  match report.status with
  | .changed applied =>
    let verb := if isWriting then "Transformed" else "Would transform"
    some (verb ++ ": " ++ report.path ++ " (" ++ String.intercalate ", " applied ++
      ")")
  | .unchanged => none
  | .failed message => some ("Error transforming " ++ report.path ++ ": " ++ message)

end FileReport

/-- How many files have each status. -/
structure Counters where
  changed : Nat
  unchanged : Nat
  errored : Nat
  deriving DecidableEq, Repr

namespace Counters

def zero : Counters :=
  ⟨0, 0, 0⟩

def count (counters : Counters) : FileStatus → Counters
  | .changed _ => { counters with changed := counters.changed + 1 }
  | .unchanged => { counters with unchanged := counters.unchanged + 1 }
  | .failed _ => { counters with errored := counters.errored + 1 }

end Counters

structure RunReport extends Counters where
  files : List FileReport
  /-- Changed files were written. -/
  isWriting : Bool
  /-- Changes count as a failure. -/
  isChecking : Bool
  deriving DecidableEq, Repr

namespace RunReport

def isFailure (report : RunReport) : Bool :=
  report.errored > 0 || (report.isChecking && report.changed > 0)

def encode (report : RunReport) : Json :=
  .object [("files", .array (report.files.map FileReport.encode)),
    ("changed", .nat report.changed), ("unchanged", .nat report.unchanged),
    ("errored", .nat report.errored), ("written", .bool report.isWriting)]

/-- A line with a number of files, unless the number is zero. -/
def countLine (count : Nat) (what : String) : List String :=
  if count = 0 then [] else ["  " ++ toString count ++ " file(s) " ++ what]

/-- The lines at the end of a report, before the time that the run took. -/
def summary (report : RunReport) : List String :=
  let total := toString report.files.length ++ " file(s)"
  let head :=
    if report.isWriting then
      ("Transformed " ++ total) :: countLine report.changed "rewritten"
    else
      ("Checked " ++ total ++
        if report.isChecking then "" else " (use --write to apply changes)") ::
        countLine report.changed "would change"
  "" :: head ++ countLine report.unchanged "unchanged" ++
    countLine report.errored "had errors"

end RunReport

/-- A number with two places after the point, given in hundredths. -/
def hundredths (count : Nat) : String :=
  let places := count % 100
  toString (count / 100) ++ "." ++ (if places < 10 then "0" else "") ++
    toString places

/-- A time in the largest unit of which it has at least one. -/
def elapsedText (nanoseconds : Nat) : String :=
  if nanoseconds ≥ 1000000000 then hundredths (nanoseconds / 10000000) ++ "s"
  else if nanoseconds ≥ 1000000 then hundredths (nanoseconds / 10000) ++ "ms"
  else if nanoseconds ≥ 1000 then hundredths (nanoseconds / 10) ++ "µs"
  else hundredths (nanoseconds * 100) ++ "ns"

def unlines (lines : List String) : String :=
  String.join (lines.map (· ++ "\n"))

def padded (width : Nat) (text : String) : String :=
  text ++ String.ofList (List.replicate (width - text.length) ' ')

def describe (transform : Transform) : Json :=
  .object [("name", .string transform.name),
    ("description", .string transform.description),
    ("paths", .strings transform.paths),
    ("moduleApiChange", .bool transform.changesModule)]

def transformLines (width : Nat) (transform : Transform) : List String :=
  let order := if transform.changesModule then "runs first" else "runs last "
  (padded width transform.name ++ "  [" ++ order ++ "]  " ++ transform.description) ::
    if transform.paths.isEmpty then []
    else [padded width "" ++ "  paths: " ++ String.intercalate ", " transform.paths]

def listing (format : OutputFormat) (registry : Registry) : String :=
  match format with
  | .json => Json.pretty (.array (registry.transforms.map describe)) ++ "\n"
  | .text =>
    let width := (registry.names.map String.length).foldl max 0
    unlines (registry.transforms.flatMap (transformLines width))

end Codemod.Command
