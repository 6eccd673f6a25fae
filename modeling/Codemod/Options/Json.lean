import Codemod.Json.Decode
import Codemod.Options.Basic

/-!
# Options as JSON

Reading and writing options.  Every field may be missing and then has its
standard value; all fields are written.
-/

namespace Codemod

namespace Quote

def ofName (name : String) : Decoded Quote :=
  if name == "single" then .ok single
  else if name == "double" then .ok double
  else .error (.unknownQuote name)

/-- Read the value that goes with the name of a quote, which is nothing. -/
def decodeNothing (delivery : Delivery) : Json → Decoded Unit
  | .null => .ok ()
  | .object [] =>
    if delivery = .buffered then .ok ()
    else .error (.mismatch (.object []) "unit")
  | found => .error (.mismatch found "unit")

/-- Read a quote, a name or an object that has the name as its only key. -/
def decode (delivery : Delivery) : Json → Decoded Quote
  | .string name => ofName name
  | .object [(name, value)] =>
    match ofName name with
    | .error cause => .error cause
    | .ok quote => (decodeNothing delivery value).map fun _ => quote
  | .object _ =>
    .error (if delivery = .streamed then .malformed else .notSingleKey)
  | found =>
    .error (if delivery = .streamed then .malformed
      else .mismatch found "string or map")

end Quote

namespace Style

def fieldNames : List String :=
  ["quote", "trailingComma", "flowObjectCommas", "arrowParensAlways",
    "arrayBracketSpacing", "objectCurlySpacing", "tabWidth", "useTabs"]

def setField (delivery : Delivery) : Decode.Setter Style :=
  fun style name value =>
    match name with
    | "quote" =>
      some ((Quote.decode delivery value).map ({ style with quote := · }))
    | "trailingComma" =>
      some ((Decode.bool value).map ({ style with trailingComma := · }))
    | "flowObjectCommas" =>
      some ((Decode.bool value).map ({ style with flowObjectCommas := · }))
    | "arrowParensAlways" =>
      some ((Decode.bool value).map ({ style with arrowParensAlways := · }))
    | "arrayBracketSpacing" =>
      some ((Decode.bool value).map ({ style with arrayBracketSpacing := · }))
    | "objectCurlySpacing" =>
      some ((Decode.bool value).map ({ style with objectCurlySpacing := · }))
    | "tabWidth" =>
      some ((Decode.byte value).map ({ style with tabWidth := · }))
    | "useTabs" =>
      some ((Decode.bool value).map ({ style with useTabs := · }))
    | _ => none

def decode (delivery : Delivery) : Json → Decoded Style :=
  Decode.record delivery "struct PrintOptions" fieldNames (setField delivery)
    standard

def encode (style : Style) : Json :=
  .object [("quote", .string style.quote.name),
    ("trailingComma", .bool style.trailingComma),
    ("flowObjectCommas", .bool style.flowObjectCommas),
    ("arrowParensAlways", .bool style.arrowParensAlways),
    ("arrayBracketSpacing", .bool style.arrayBracketSpacing),
    ("objectCurlySpacing", .bool style.objectCurlySpacing),
    ("tabWidth", .nat style.tabWidth.val),
    ("useTabs", .bool style.useTabs)]

end Style

namespace SelfReference

def decode (json : Json) : Decoded SelfReference :=
  match Decode.string json with
  | .error cause => .error cause
  | .ok text =>
    match ofText? text with
    | some reference => .ok reference
    | none => .error (.invalidSelfReference text)

end SelfReference

namespace PathTable

/-- Read filters into a table; a repeated name counts with its last filter. -/
def decodeEntries : PathTable → List (String × Json) → Decoded PathTable
  | table, [] => .ok table
  | table, (name, value) :: rest =>
    match Decode.strings value with
    | .error cause => .error cause
    | .ok filter => decodeEntries (table.insert name filter) rest

def decode : Json → Decoded PathTable
  | .object entries => decodeEntries [] entries
  | found => .error (.mismatch found "a map")

def encode (table : PathTable) : Json :=
  .object (table.map fun entry => (entry.1, .strings entry.2))

end PathTable

namespace TransformOptions

def fieldNames : List String :=
  ["printOptions", "selfReference", "componentBaseClass", "componentModule",
    "paths"]

def setField (delivery : Delivery) : Decode.Setter TransformOptions :=
  fun options name value =>
    match name with
    | "printOptions" =>
      some ((Style.decode delivery value).map ({ options with style := · }))
    | "selfReference" =>
      some ((SelfReference.decode value).map
        ({ options with selfReference := · }))
    | "componentBaseClass" =>
      some ((Decode.string value).map ({ options with componentBase := · }))
    | "componentModule" =>
      some ((Decode.string value).map ({ options with componentModule := · }))
    | "paths" =>
      some ((PathTable.decode value).map ({ options with paths := · }))
    | _ => none

def decode (delivery : Delivery) : Json → Decoded TransformOptions :=
  Decode.record delivery "struct TransformOptions" fieldNames
    (setField delivery) standard

def encodeFields (options : TransformOptions) : List (String × Json) :=
  [("printOptions", options.style.encode),
    ("selfReference", .string options.selfReference.text),
    ("componentBaseClass", .string options.componentBase),
    ("componentModule", .string options.componentModule),
    ("paths", options.paths.encode)]

def encode (options : TransformOptions) : Json :=
  .object options.encodeFields

end TransformOptions

end Codemod
