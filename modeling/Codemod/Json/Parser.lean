import Codemod.Json.Basic

/-!
# Reading JSON

A strict reader: no comments, no trailing commas, no text after the value.
-/

namespace Codemod.Json

def isSpace (char : Char) : Bool :=
  char == ' ' || char == '\n' || char == '\t' || char == '\r'

/-- The text from the first character that is not white space on. -/
def skipSpace (text : List Char) : List Char :=
  text.dropWhile isSpace

def hexDigit? (char : Char) : Option Nat :=
  if '0' ≤ char && char ≤ '9' then some (char.toNat - '0'.toNat)
  else if 'a' ≤ char && char ≤ 'f' then some (char.toNat - 'a'.toNat + 10)
  else if 'A' ≤ char && char ≤ 'F' then some (char.toNat - 'A'.toNat + 10)
  else none

def readUnit : List Char → Option (Nat × List Char)
  | first :: second :: third :: fourth :: rest => do
    let high := (← hexDigit? first) * 16 + (← hexDigit? second)
    let low := (← hexDigit? third) * 16 + (← hexDigit? fourth)
    return (high * 256 + low, rest)
  | _ => none

/-- The character of an escape whose backslash has been read. -/
def readEscape : List Char → Option (Char × List Char)
  | '"' :: rest => some ('"', rest)
  | '\\' :: rest => some ('\\', rest)
  | '/' :: rest => some ('/', rest)
  | 'b' :: rest => some ('\x08', rest)
  | 'f' :: rest => some ('\x0c', rest)
  | 'n' :: rest => some ('\n', rest)
  | 'r' :: rest => some ('\r', rest)
  | 't' :: rest => some ('\t', rest)
  | 'u' :: rest => do
    let (unit, rest) ← readUnit rest
    if 0xdc00 ≤ unit && unit ≤ 0xdfff then none
    else if 0xd800 ≤ unit && unit ≤ 0xdbff then
      match rest with
      | '\\' :: 'u' :: rest =>
        let (low, rest) ← readUnit rest
        if 0xdc00 ≤ low && low ≤ 0xdfff then
          return (Char.ofNat (0x10000 + (unit - 0xd800) * 0x400 + (low - 0xdc00)),
            rest)
        else none
      | _ => none
    else return (Char.ofNat unit, rest)
  | _ => none

/-- The rest of a string up to its closing quote. -/
def readString : (fuel : Nat) → List Char → Option (List Char × List Char)
  | 0, _ => none
  | _ + 1, [] => none
  | fuel + 1, char :: rest =>
    if char == '"' then some ([], rest)
    else if char == '\\' then do
      let (decoded, rest) ← readEscape rest
      let (tail, rest) ← readString fuel rest
      return (decoded :: tail, rest)
    else if char.toNat < 0x20 then none
    else do
      let (tail, rest) ← readString fuel rest
      return (char :: tail, rest)

def takeDigits (text : List Char) : List Char × List Char :=
  (text.takeWhile Char.isDigit, text.dropWhile Char.isDigit)

def digitsValue (digits : List Char) : Nat :=
  digits.foldl (fun value digit => value * 10 + (digit.toNat - '0'.toNat)) 0

def readFraction : List Char → Option (List Char × List Char)
  | '.' :: rest =>
    let (digits, rest) := takeDigits rest
    if digits.isEmpty then none else some (digits, rest)
  | rest => some ([], rest)

def readExponent : List Char → Option (Option Int × List Char)
  | char :: rest =>
    if char == 'e' || char == 'E' then
      let (sign, rest) : Int × List Char :=
        match rest with
        | '-' :: rest => (-1, rest)
        | '+' :: rest => (1, rest)
        | rest => (1, rest)
      let (digits, rest) := takeDigits rest
      if digits.isEmpty then none
      else some (some (sign * digitsValue digits), rest)
    else some (none, char :: rest)
  | [] => some (none, [])

/-- Whether an integer is kept as one. -/
def isSmall (value : Int) : Bool :=
  -(Nat.pow 2 63 : Int) ≤ value && value < (Nat.pow 2 64 : Int)

def readNumber (isNegative : Bool) (text : List Char) :
    Option (JsonNumber × List Char) := do
  let (whole, rest) := takeDigits text
  let isWhole := match whole with
    | [] => false
    | ['0'] => true
    | first :: _ => first != '0'
  if !isWhole then none
  else
    let (fraction, rest) ← readFraction rest
    let (exponent, rest) ← readExponent rest
    let mantissa := digitsValue (whole ++ fraction)
    let value : Int := if isNegative then -mantissa else mantissa
    if fraction.isEmpty && exponent.isNone && isSmall value &&
        !(isNegative && mantissa == 0) then
      return (.integer value, rest)
    else
      return (.decimal ⟨isNegative, mantissa, exponent.getD 0 - fraction.length⟩,
        rest)

/-- A word of the format after which the value is known. -/
def readWord (word : List Char) (value : Json) (text : List Char) :
    Option (Json × List Char) :=
  if word.isPrefixOf text then some (value, text.drop word.length) else none

mutual

/-- A value at the front of a text, nested at most `fuel` deep. -/
def readValue : (fuel : Nat) → List Char → Option (Json × List Char)
  | 0, _ => none
  | fuel + 1, text =>
    match skipSpace text with
    | '"' :: rest => do
      let (value, rest) ← readString (rest.length + 1) rest
      return (.string (String.ofList value), rest)
    | '[' :: rest =>
      match skipSpace rest with
      | ']' :: rest => some (.array [], rest)
      | rest => do
        let (items, rest) ← readItems fuel rest
        return (.array items, rest)
    | '{' :: rest =>
      match skipSpace rest with
      | '}' :: rest => some (.object [], rest)
      | rest => do
        let (fields, rest) ← readFields fuel rest
        return (.object fields, rest)
    | '-' :: rest => do
      let (numeral, rest) ← readNumber true rest
      return (.number numeral, rest)
    | 'n' :: rest => readWord ['n', 'u', 'l', 'l'] .null ('n' :: rest)
    | 't' :: rest => readWord ['t', 'r', 'u', 'e'] (.bool true) ('t' :: rest)
    | 'f' :: rest =>
      readWord ['f', 'a', 'l', 's', 'e'] (.bool false) ('f' :: rest)
    | rest => do
      let (numeral, rest) ← readNumber false rest
      return (.number numeral, rest)

def readItems : (fuel : Nat) → List Char → Option (List Json × List Char)
  | 0, _ => none
  | fuel + 1, text => do
    let (item, rest) ← readValue fuel text
    match skipSpace rest with
    | ']' :: rest => return ([item], rest)
    | ',' :: rest =>
      let (items, rest) ← readItems fuel rest
      return (item :: items, rest)
    | _ => none

def readFields :
    (fuel : Nat) → List Char → Option (List (String × Json) × List Char)
  | 0, _ => none
  | fuel + 1, text =>
    match skipSpace text with
    | '"' :: rest => do
      let (name, rest) ← readString (rest.length + 1) rest
      match skipSpace rest with
      | ':' :: rest =>
        let (value, rest) ← readValue fuel rest
        let field := (String.ofList name, value)
        match skipSpace rest with
        | '}' :: rest => return ([field], rest)
        | ',' :: rest =>
          let (fields, rest) ← readFields fuel rest
          return (field :: fields, rest)
        | _ => none
      | _ => none
    | _ => none

end

def parse (text : List Char) : Option Json := do
  let (value, rest) ← readValue (2 * text.length + 2) text
  if (skipSpace rest).isEmpty then some value else none

end Codemod.Json
