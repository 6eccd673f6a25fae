/-!
# Command line arguments

What a command line asks for.  Options may stand before and after patterns, a
double dash ends them, and short options may be written together.
-/

namespace Codemod.Command

inductive OutputFormat where
  | text
  | json
  deriving DecidableEq, Repr

structure RunArguments where
  patterns : List String
  /-- The transforms to run; none stands for the configured ones. -/
  transforms : List String
  /-- Changed files are written. -/
  isWriting : Bool
  /-- Changes count as a failure, and nothing is written. -/
  isChecking : Bool
  config : Option String
  format : OutputFormat
  deriving DecidableEq, Repr

inductive Request where
  | version
  | help
  | run (arguments : RunArguments)
  | list (format : OutputFormat)
  deriving DecidableEq, Repr

inductive OptionName where
  | version
  | help
  | verbose
  | transform
  | write
  | check
  | config
  | format
  deriving DecidableEq, Repr

structure OptionSpec where
  name : OptionName
  long : String
  shorts : List Char
  takesValue : Bool
  deriving DecidableEq, Repr

inductive Argument where
  | flag (name : OptionName)
  | setting (name : OptionName) (value : String)
  | pattern (text : String)
  deriving DecidableEq, Repr

def commonOptions : List OptionSpec :=
  [⟨.help, "help", ['h'], false⟩, ⟨.verbose, "verbose", [], false⟩]

def topOptions : List OptionSpec :=
  ⟨.version, "version", ['v', 'V'], false⟩ :: commonOptions

def formatOption : OptionSpec :=
  ⟨.format, "format", ['f'], true⟩

def listOptions : List OptionSpec :=
  formatOption :: commonOptions

def runOptions : List OptionSpec :=
  [⟨.transform, "codemod", ['m'], true⟩, ⟨.write, "write", ['w'], false⟩,
    ⟨.check, "check", [], false⟩, ⟨.config, "config", ['c'], true⟩, formatOption] ++
    commonOptions

/-- Whether an argument cannot be the value of an option. -/
def looksLikeOption (argument : String) : Bool :=
  argument.toList.head? == some '-' && argument != "-"

/-- The value of an option that stands as the next argument. -/
def nextValue? (name : OptionName) : List String →
    Option (List Argument × List String)
  | [] => none
  | value :: rest =>
    if looksLikeOption value then none else some ([.setting name value], rest)

/-- Read a long option without its dashes. -/
def readLong (specs : List OptionSpec) (text : List Char) (rest : List String) :
    Option (List Argument × List String) := do
  let name := String.ofList (text.takeWhile (· != '='))
  let spec ← specs.find? fun spec => spec.long == name
  match text.dropWhile (· != '='), spec.takesValue with
  | [], false => some ([.flag spec.name], rest)
  | [], true => nextValue? spec.name rest
  | _ :: _, false => none
  | _ :: value, true => some ([.setting spec.name (String.ofList value)], rest)

/-- Read short options written together. -/
def readShorts (specs : List OptionSpec) :
    List Char → List String → Option (List Argument × List String)
  | [], rest => some ([], rest)
  | char :: chars, rest => do
    let spec ← specs.find? fun spec => spec.shorts.contains char
    if spec.takesValue then
      match chars with
      | [] => nextValue? spec.name rest
      | '=' :: value => some ([.setting spec.name (String.ofList value)], rest)
      | value => some ([.setting spec.name (String.ofList value)], rest)
    else if spec.name == .version || spec.name == .help then
      some ([.flag spec.name], rest)
    else
      let (others, rest) ← readShorts specs chars rest
      return (.flag spec.name :: others, rest)

/-- Read the argument at the front, with its value if it takes one. -/
def readOne (specs : List OptionSpec) (argument : String) (rest : List String) :
    Option (List Argument × List String) :=
  match argument.toList with
  | '-' :: '-' :: name => readLong specs name rest
  | '-' :: first :: others => readShorts specs (first :: others) rest
  | _ => some ([.pattern argument], rest)

/-- Whether an argument makes all later ones irrelevant. -/
def endsReading (arguments : List Argument) : Bool :=
  arguments.contains (.flag .version) || arguments.contains (.flag .help)

/-- Read arguments, of which there are at most `fuel`. -/
def readAll (specs : List OptionSpec) :
    (fuel : Nat) → List String → Option (List Argument)
  | 0, _ => some []
  | _ + 1, [] => some []
  | fuel + 1, argument :: rest =>
    if argument == "--" then some (rest.map .pattern)
    else do
      let (first, rest) ← readOne specs argument rest
      if endsReading first then return first
      else return first ++ (← readAll specs fuel rest)

def patterns (arguments : List Argument) : List String :=
  arguments.filterMap fun argument =>
    match argument with
    | .pattern text => some text
    | _ => none

def values (name : OptionName) (arguments : List Argument) : List String :=
  arguments.filterMap fun argument =>
    match argument with
    | .setting other value => if other = name then some value else none
    | _ => none

/-- Whether a flag is given; nothing if it is given twice. -/
def flag? (name : OptionName) (arguments : List Argument) : Option Bool :=
  match arguments.filter (· == .flag name) with
  | [] => some false
  | [_] => some true
  | _ => none

/-- The value of an option, if it is given; nothing if it is given twice. -/
def value? (name : OptionName) (arguments : List Argument) :
    Option (Option String) :=
  match values name arguments with
  | [] => some none
  | [value] => some (some value)
  | _ => none

def format? (arguments : List Argument) : Option OutputFormat := do
  match ← value? .format arguments with
  | none => some .text
  | some "text" => some .text
  | some "json" => some .json
  | some _ => none

/-- The configuration file that is asked for; its path is not empty. -/
def config? (arguments : List Argument) : Option (Option String) := do
  match ← value? .config arguments with
  | some "" => none
  | path => some path

def defaultRun : RunArguments :=
  ⟨["."], [], false, false, none, .text⟩

def parseRun (given : List String) : Option Request := do
  let arguments ← readAll runOptions given.length given
  if endsReading arguments then some .help
  else
    let _ ← flag? .verbose arguments
    let patterns := patterns arguments
    some (.run {
      patterns := if patterns.isEmpty then defaultRun.patterns else patterns
      transforms := values .transform arguments
      isWriting := ← flag? .write arguments
      isChecking := ← flag? .check arguments
      config := ← config? arguments
      format := ← format? arguments })

def parseList (given : List String) : Option Request := do
  let arguments ← readAll listOptions given.length given
  if endsReading arguments then some .help
  else
    let _ ← flag? .verbose arguments
    if (patterns arguments).isEmpty then some (.list (← format? arguments))
    else none

/-- What a command line asks for, after the flags in front of the command. -/
def parseFrom (isVerbose : Bool) : List String → Option Request
  | [] => some (.run defaultRun)
  | ["--"] => some (.run defaultRun)
  | "run" :: rest => parseRun rest
  | "list" :: rest => parseList rest
  | "help" :: _ => some .help
  | argument :: rest =>
    match readOne topOptions argument [] with
    | some ([.flag .version], _) => some .version
    | some ([.flag .help], _) => some .help
    | some ([.flag .verbose], _) => if isVerbose then none else parseFrom true rest
    | _ => none

/-- What a command line asks for; nothing if it cannot be understood. -/
def parseRequest (given : List String) : Option Request :=
  parseFrom false given

end Codemod.Command
