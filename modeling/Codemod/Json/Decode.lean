import Codemod.Json.Basic
import Codemod.Text.Literal

/-!
# Decoding JSON

Values become records of options.  A record is written as an object, whose
unknown fields are passed over, or as an array of its fields in order.  What is
wrong with a value is a cause with a wording of its own.
-/

namespace Codemod

inductive DecodeError where
  /-- A value of another type is needed. -/
  | wrongType (found : Json) (expected : String)
  /-- A number does not fit in a byte. -/
  | outOfRange (value : Int)
  /-- An array has more items than a record has fields. -/
  | wrongLength (length : Nat) (expected : String)
  /-- A choice is not among the quotes. -/
  | unknownQuote (name : String)
  /-- A choice is written as an object that has not exactly one field. -/
  | notSingleKey
  | duplicateField (name : String)
  | invalidSelfReference (text : String)
  /-- The text cannot be read on at the value. -/
  | malformed
  deriving Repr

/-- How a value reaches its decoder, which decides what some faults count as. -/
inductive Delivery where
  /-- While the text is read. -/
  | streamed
  /-- As a value that has been read before. -/
  | parsed
  /-- As a field kept back while the fields around it are read. -/
  | buffered
  deriving DecidableEq, Repr

namespace Json

def description : Json → String
  | null => "null"
  | bool true => "boolean `true`"
  | bool false => "boolean `false`"
  | number (.integer value) => "integer `" ++ toString value ++ "`"
  | number (.decimal value) =>
    let text := (value.toBinary?.map fun binary => binary.shortest.text).getD ""
    "floating point `" ++ text ++ "`"
  | string value => "string " ++ Text.literal value
  | array _ => "sequence"
  | object _ => "map"

def isOverflow : Json → Bool
  | number (.decimal value) => value.toBinary?.isNone
  | _ => false

end Json

namespace DecodeError

def mismatch (found : Json) (expected : String) : DecodeError :=
  if found.isOverflow then malformed else wrongType found expected

/-- The wording of a cause; text that cannot be read has none of its own. -/
def message : DecodeError → Option String
  | wrongType found expected =>
    some ("invalid type: " ++ found.description ++ ", expected " ++ expected)
  | outOfRange value =>
    some ("invalid value: integer `" ++ toString value ++ "`, expected u8")
  | wrongLength length expected =>
    some ("invalid length " ++ toString length ++ ", expected " ++ expected)
  | unknownQuote name =>
    some ("unknown variant `" ++ name ++ "`, expected `single` or `double`")
  | notSingleKey => some "invalid value: map, expected map with a single key"
  | duplicateField name => some ("duplicate field `" ++ name ++ "`")
  | invalidSelfReference text =>
    some ("`" ++ text ++ "` is not a valid self reference")
  | malformed => none

end DecodeError

abbrev Decoded (α : Type) : Type := Except DecodeError α

namespace Decode

def bool : Json → Decoded Bool
  | .bool value => .ok value
  | found => .error (.mismatch found "a boolean")

def string : Json → Decoded String
  | .string value => .ok value
  | found => .error (.mismatch found "a string")

/-- A number from 0 to 255. -/
def byte : Json → Decoded (Fin 256)
  | .number (.integer value) =>
    if isSmall : 0 ≤ value ∧ value < 256 then
      .ok ⟨value.toNat, by omega⟩
    else .error (.outOfRange value)
  | found => .error (.mismatch found "u8")

def strings : Json → Decoded (List String)
  | .array items => items.mapM string
  | found => .error (.mismatch found "a sequence")

def optionalString : Json → Decoded (Option String)
  | .null => .ok none
  | found => (string found).map some

/-- A record being decoded: set a field, if the record has it. -/
abbrev Setter (α : Type) : Type := α → String → Json → Option (Decoded α)

/-- Set the fields of an object in order; a field may be set once. -/
def fields {α : Type} (set : Setter α) :
    (seen : List String) → α → List (String × Json) → Decoded α
  | _, record, [] => .ok record
  | seen, record, (name, value) :: rest =>
    match set record name value with
    | none => fields set seen record rest
    | some result =>
      if seen.contains name then .error (.duplicateField name)
      else
        match result with
        | .error cause => .error cause
        | .ok updated => fields set (name :: seen) updated rest

/-- What a record needs that has fewer fields than an array has items. -/
def lengthError (delivery : Delivery) (given needed : Nat) : DecodeError :=
  match delivery with
  | .streamed => .malformed
  | .parsed => .wrongLength given "fewer elements in array"
  | .buffered =>
    .wrongLength given (toString needed ++
      if needed = 1 then " element in sequence" else " elements in sequence")

/-- A record, by the names of its fields in order. -/
def record {α : Type} (delivery : Delivery) (description : String)
    (names : List String) (set : Setter α) (initial : α) : Json → Decoded α
  | .object entries => fields set [] initial entries
  | .array items =>
    match fields set [] initial (names.zip items) with
    | .error cause => .error cause
    | .ok result =>
      if names.length < items.length then
        .error (lengthError delivery items.length names.length)
      else .ok result
  | found => .error (.mismatch found description)

end Decode

end Codemod
