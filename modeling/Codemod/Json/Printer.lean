import Codemod.Json.Basic

/-!
# Writing JSON

Values on one line, and values laid out over lines with two spaces for each
level.  Characters beyond ASCII are written as they are.
-/

namespace Codemod.Json

def hexChar (value : Nat) : Char :=
  if value < 10 then Char.ofNat ('0'.toNat + value)
  else Char.ofNat ('a'.toNat + (value - 10))

/-- A character as it is written inside a string. -/
def escapeChar (char : Char) : List Char :=
  if char == '"' then ['\\', '"']
  else if char == '\\' then ['\\', '\\']
  else if char == '\n' then ['\\', 'n']
  else if char == '\r' then ['\\', 'r']
  else if char == '\t' then ['\\', 't']
  else if char == '\x08' then ['\\', 'b']
  else if char == '\x0c' then ['\\', 'f']
  else if char.toNat < 0x20 then
    ['\\', 'u', '0', '0', hexChar (char.toNat / 16), hexChar (char.toNat % 16)]
  else [char]

def quoted (value : String) : String :=
  String.ofList ('"' :: value.toList.flatMap escapeChar ++ ['"'])

def numberText : JsonNumber → String
  | .integer value => toString value
  | .decimal value =>
    match value.toBinary? with
    | some binary => binary.shortest.text
    | none => "null"

def bracketed (isObject : Bool) (body : String) : String :=
  if isObject then String.singleton '{' ++ body ++ String.singleton '}'
  else "[" ++ body ++ "]"

mutual

/-- A value on one line. -/
def compact : Json → String
  | .null => "null"
  | .bool true => "true"
  | .bool false => "false"
  | .number value => numberText value
  | .string value => quoted value
  | .array items => bracketed false (String.intercalate "," (compactItems items))
  | .object fields =>
    bracketed true (String.intercalate "," (compactFields fields))

def compactItems : List Json → List String
  | [] => []
  | item :: rest => compact item :: compactItems rest

def compactFields : List (String × Json) → List String
  | [] => []
  | (name, value) :: rest =>
    (quoted name ++ ":" ++ compact value) :: compactFields rest

end

def newLine (level : Nat) : String :=
  "\n" ++ String.ofList (List.replicate (2 * level) ' ')

/-- Parts laid out one to a line. -/
def spread (isObject : Bool) (level : Nat) (parts : List String) : String :=
  if parts.isEmpty then bracketed isObject ""
  else
    bracketed isObject
      (newLine (level + 1) ++ String.intercalate ("," ++ newLine (level + 1)) parts ++
        newLine level)

mutual

/-- A value laid out over lines, at a level of indentation. -/
def layout (level : Nat) : Json → String
  | .null => "null"
  | .bool true => "true"
  | .bool false => "false"
  | .number value => numberText value
  | .string value => quoted value
  | .array items => spread false level (layoutItems (level + 1) items)
  | .object fields => spread true level (layoutFields (level + 1) fields)

def layoutItems (level : Nat) : List Json → List String
  | [] => []
  | item :: rest => layout level item :: layoutItems level rest

def layoutFields (level : Nat) : List (String × Json) → List String
  | [] => []
  | (name, value) :: rest =>
    (quoted name ++ ": " ++ layout level value) :: layoutFields level rest

end

def pretty (json : Json) : String :=
  layout 0 json

end Codemod.Json
