import Codemod.Command.Work
import Codemod.Files.Collect

/-!
# The command

Everything a command line does to a file tree: what it prints, how it exits
and what it leaves in the files.  The time that a run takes is added when its
messages are shown.
-/

namespace Codemod.Command

/-- The files that a command sees and the directory that it runs in. -/
structure Surroundings where
  tree : FileTree
  directory : Location
  deriving DecidableEq, Repr

structure Outcome where
  exit : Nat
  stdout : String
  /-- The lines for the error stream. -/
  messages : List String
  /-- The time that the command took ends the messages. -/
  isTimed : Bool
  tree : FileTree
  deriving DecidableEq, Repr

namespace Outcome

def stderr (outcome : Outcome) (elapsed : String) : String :=
  unlines (outcome.messages ++
    if outcome.isTimed then ["  done in " ++ elapsed] else [])

end Outcome

def configFile : String := "ciseau.config.json"

def versionText : String := "ciseau 0.4.0\n"

def usage : List String :=
  ["Scope-aware codemods for JavaScript and JSX", "",
    "Usage: ciseau [OPTIONS] [COMMAND]"]

namespace Surroundings

def directoryPath (surroundings : Surroundings) : String :=
  "/" ++ String.intercalate "/" surroundings.directory

def read (surroundings : Surroundings) (path : String) :
    Except FileError (List Char) :=
  surroundings.tree.read surroundings.directory path

end Surroundings

/-! ## Configuration -/

/-- Why the configuration at a path cannot be used. -/
inductive LoadError where
  | unread (path : String) (cause : FileError)
  | unparsed (path : String) (cause : ConfigError)

def LoadError.message (wording : Wording) : LoadError → String
  | unread path cause => "failed to read " ++ path ++ ": " ++ cause.message
  | unparsed path cause => "failed to parse " ++ path ++ ": " ++ wording.configFault cause

def readConfig (surroundings : Surroundings) (path : String) : Except LoadError Config :=
  match surroundings.read path with
  | .error cause => .error (.unread path cause)
  | .ok text =>
    match Config.parse text with
    | .ok config => .ok config
    | .error cause => .error (.unparsed path cause)

structure LoadedConfig where
  config : Config
  /-- Why the configuration in the directory was not taken. -/
  fault : Option LoadError

/-- The lines of a warning, if there is one. -/
def LoadedConfig.warning (wording : Wording) (loaded : LoadedConfig) : List String :=
  loaded.fault.toList.map fun fault =>
    "\x1b[33mWarning:\x1b[0m " ++ fault.message wording

/--
The configuration of a run.  One that is asked for has to be usable; the one in
the directory may be missing, and if it is broken it only gives a warning.
-/
def loadConfig (surroundings : Surroundings) (path : Option String) :
    Except LoadError LoadedConfig :=
  match path with
  | some path => (readConfig surroundings path).map (⟨·, none⟩)
  | none =>
    let path := Path.join surroundings.directoryPath configFile
    if surroundings.tree.hasEntry (surroundings.directory ++ [configFile]) then
      match readConfig surroundings path with
      | .ok config => .ok ⟨config, none⟩
      | .error fault => .ok ⟨.standard, some fault⟩
    else .ok ⟨.standard, none⟩

/-! ## Commands -/

def failure (surroundings : Surroundings) (lines : List String) : Outcome :=
  ⟨1, "", lines, false, surroundings.tree⟩

/-- The names of the transforms that are asked for. -/
def requested (arguments : RunArguments) (config : Config) : List String :=
  if arguments.transforms.isEmpty then config.transforms else arguments.transforms

/-- What the work on the files of a run goes by. -/
def assigned (wording : Wording) (surroundings : Surroundings) (arguments : RunArguments)
    (config : Config) (transforms : List Transform) : Assignment where
  wording := wording
  options := config.options
  transforms := transforms
  directory := surroundings.directory
  isWriting := arguments.isWriting && !arguments.isChecking
  isShowing := arguments.format == .text

/-- A run, with the order in which its files have their turns. -/
def run (wording : Wording) (surroundings : Surroundings) (schedule : List Nat)
    (arguments : RunArguments) : Outcome :=
  match loadConfig surroundings arguments.config with
  | .error fault => failure surroundings ["Error: " ++ fault.message wording]
  | .ok loaded =>
    let warning := loaded.warning wording
    match Registry.builtin.ordered (requested arguments loaded.config) with
    | .error name =>
      failure surroundings (warning ++ ["Error: Unknown codemod: " ++ name])
    | .ok transforms =>
      let files := Files.collect surroundings.tree surroundings.directory
        arguments.patterns
      if files.isEmpty then
        ⟨0, "", warning ++
          ["No source files found matching patterns: [" ++
            Text.literals arguments.patterns ++ "]"], false, surroundings.tree⟩
      else
        let assignment := assigned wording surroundings arguments loaded.config transforms
        let work := Work.complete assignment surroundings.tree files schedule
        let report : RunReport := {
          toCounters := work.counters
          files := work.reports
          isWriting := assignment.isWriting
          isChecking := arguments.isChecking }
        let opening := "Running " ++ toString transforms.length ++
          " codemod(s) over " ++ toString files.length ++ " file(s)"
        let exit := if report.isFailure then 1 else 0
        match arguments.format with
        | .json =>
          ⟨exit, Json.pretty report.encode ++ "\n", warning, false, work.tree⟩
        | .text =>
          ⟨exit, "", warning ++ opening :: work.shown ++ report.summary, true, work.tree⟩

def perform (wording : Wording) (surroundings : Surroundings) (schedule : List Nat) :
    Request → Outcome
  | .version => ⟨0, versionText, [], false, surroundings.tree⟩
  | .help => ⟨0, unlines usage, [], false, surroundings.tree⟩
  | .list format => ⟨0, listing format .builtin, [], false, surroundings.tree⟩
  | .run arguments => run wording surroundings schedule arguments

/-- Carry out a command line; one that cannot be understood exits with 2. -/
def execute (wording : Wording) (surroundings : Surroundings) (schedule : List Nat)
    (arguments : List String) : Outcome :=
  match parseRequest arguments with
  | some request => perform wording surroundings schedule request
  | none =>
    ⟨2, "", "error: unexpected arguments" :: "" :: usage, false, surroundings.tree⟩

end Codemod.Command
