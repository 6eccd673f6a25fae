import Codemod.Json.Parser
import Codemod.Options.Json

/-!
# Configuration

The configuration of a project: the transforms that run when none is named,
and the options for all of them, in one object.
-/

namespace Codemod

structure Config where
  /-- The schema that editors check the file against. -/
  schema : Option String
  /-- The transforms to run; none stands for all. -/
  transforms : List String
  options : TransformOptions
  deriving DecidableEq

inductive ConfigError where
  /-- The text is not in the data format. -/
  | malformed
  | invalid (cause : DecodeError)

namespace Config

def standard : Config :=
  ⟨none, [], .standard⟩

/-- Set a field that is not one of the options. -/
def setOwnField : Decode.Setter Config :=
  fun config name value =>
    match name with
    | "$schema" =>
      some ((Decode.optionalString value).map ({ config with schema := · }))
    | "codemods" =>
      some ((Decode.strings value).map ({ config with transforms := · }))
    | _ => none

/-- Read a configuration; the options are looked at after the other fields. -/
def decode : Json → Decoded Config
  | .object entries =>
    match Decode.fields setOwnField [] standard entries with
    | .error cause => .error cause
    | .ok config =>
      (Decode.fields (TransformOptions.setField .buffered) [] .standard
        entries).map ({ config with options := · })
  | found => .error (.mismatch found "struct CiseauConfig")

def encode (config : Config) : Json :=
  .object ((config.schema.toList.map fun schema => ("$schema", .string schema)) ++
    ("codemods", .strings config.transforms) :: config.options.encodeFields)

def parse (text : List Char) : Except ConfigError Config :=
  match Json.parse text with
  | none => .error .malformed
  | some json =>
    match decode json with
    | .ok config => .ok config
    | .error .malformed => .error .malformed
    | .error cause => .error (.invalid cause)

end Config

def TransformOptions.parse (text : List Char) :
    Except ConfigError TransformOptions :=
  match Json.parse text with
  | none => .error .malformed
  | some json =>
    match decode .streamed json with
    | .ok options => .ok options
    | .error .malformed => .error .malformed
    | .error cause => .error (.invalid cause)

end Codemod
