import Codemod.Decimal

/-!
# JSON values

Values of the data format in which options and reports are written.  Objects
keep their fields in the order of the text, repeated fields included.
-/

namespace Codemod

/-- A number, as an integer if it is written as one and small enough. -/
inductive JsonNumber where
  | integer (value : Int)
  | decimal (value : Decimal)
  deriving DecidableEq, Repr

inductive Json where
  | null
  | bool (value : Bool)
  | number (value : JsonNumber)
  | string (value : String)
  | array (items : List Json)
  | object (fields : List (String × Json))
  deriving Repr

namespace Json

def nat (value : Nat) : Json :=
  .number (.integer value)

def strings (values : List String) : Json :=
  .array (values.map .string)

/-- The value of a field, the first if it is repeated. -/
def field? (json : Json) (name : String) : Option Json :=
  match json with
  | object fields => (fields.find? fun entry => entry.1 == name).map (·.2)
  | _ => none

end Json

end Codemod
