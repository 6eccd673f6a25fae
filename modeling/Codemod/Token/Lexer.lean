import Codemod.Text.Bytes
import Codemod.Text.Identifier
import Codemod.Token.Basic

/-!
# Reading tokens

One token is read at a time, because what a slash, a backquote or a greater
sign means depends on the grammar around it.  Each reader takes the characters
that remain and returns what it read with the characters after it.
-/

namespace Codemod.Lexer

/-- Line terminators: line feed, carriage return and the two separators. -/
def isLineBreak (char : Char) : Bool :=
  char == '\n' || char == '\r' || char.toNat == 0x2028 || char.toNat == 0x2029

/-- White space within a line. -/
def isBlank (char : Char) : Bool :=
  char == ' ' || char == '\t' || char == '\x0b' || char == '\x0c' ||
    char.toNat == 0xa0 || char.toNat == 0xfeff || char.toNat == 0x1680 ||
    (0x2000 ≤ char.toNat && char.toNat ≤ 0x200a) ||
    char.toNat == 0x202f || char.toNat == 0x205f || char.toNat == 0x3000

/-- What the skipper of blanks and comments is in the middle of. -/
inductive Gap where
  | blank
  | lineComment (start : Nat)
  | blockComment (start : Nat)

/-- What stood before a token: a line break or not, and comments, last first. -/
structure Trivia where
  offset : Nat
  rest : List Char
  sawLineBreak : Bool
  comments : List Span

/-- Skip blanks and comments; an open block comment is an error. -/
def skipTrivia (gap : Gap) (offset : Nat) (sawLineBreak : Bool)
    (comments : List Span) : List Char → Option Trivia
  | [] =>
    match gap with
    | .blank => some ⟨offset, [], sawLineBreak, comments⟩
    | .lineComment start =>
      some ⟨offset, [], sawLineBreak, ⟨start, offset⟩ :: comments⟩
    | .blockComment _ => none
  | char :: rest =>
    let next := offset + char.utf8Size
    match gap, rest with
    | .blank, second :: rest =>
      if char == '/' && second == '/' then
        skipTrivia (.lineComment offset) (offset + 2) sawLineBreak comments
          rest
      else if char == '/' && second == '*' then
        skipTrivia (.blockComment offset) (offset + 2) sawLineBreak comments
          rest
      else if isLineBreak char then
        skipTrivia .blank next true comments (second :: rest)
      else if isBlank char then
        skipTrivia .blank next sawLineBreak comments (second :: rest)
      else some ⟨offset, char :: second :: rest, sawLineBreak, comments⟩
    | .blank, [] =>
      if isLineBreak char then some ⟨next, [], true, comments⟩
      else if isBlank char then some ⟨next, [], sawLineBreak, comments⟩
      else some ⟨offset, [char], sawLineBreak, comments⟩
    | .lineComment start, rest =>
      if isLineBreak char then
        skipTrivia .blank next true (⟨start, offset⟩ :: comments) rest
      else skipTrivia (.lineComment start) next sawLineBreak comments rest
    | .blockComment start, second :: rest =>
      if char == '*' && second == '/' then
        skipTrivia .blank (offset + 2) sawLineBreak
          (⟨start, offset + 2⟩ :: comments) rest
      else
        skipTrivia (.blockComment start) next
          (sawLineBreak || isLineBreak char) comments (second :: rest)
    | .blockComment _, [] => none

def hexDigit? (char : Char) : Option Nat :=
  if '0' ≤ char && char ≤ '9' then some (char.toNat - '0'.toNat)
  else if 'a' ≤ char && char ≤ 'f' then some (char.toNat - 'a'.toNat + 10)
  else if 'A' ≤ char && char ≤ 'F' then some (char.toNat - 'A'.toNat + 10)
  else none

def hexValue? : List Char → Option Nat
  | [] => none
  | digits =>
    digits.foldl
      (fun value char => do return (← value) * 16 + (← hexDigit? char))
      (some 0)

/-- The code point of an escape whose backslash and `u` have been read. -/
def readCodePoint : List Char → Option (Nat × List Char)
  | '{' :: rest => do
    let digits := rest.takeWhile (· != '}')
    let value ← hexValue? digits
    match rest.drop digits.length with
    | '}' :: rest => if value ≤ 0x10ffff then some (value, rest) else none
    | _ => none
  | first :: second :: third :: fourth :: rest => do
    let value ← hexValue? [first, second, third, fourth]
    return (value, rest)
  | _ => none

/-- A name being read: its characters and whether any was escaped. -/
structure Spelling where
  chars : List Char
  isEscaped : Bool
  rest : List Char

/-- The rest of a name, of at most `fuel` characters. -/
def readNameRest (accepts : Char → Bool) :
    (fuel : Nat) → (chars : List Char) → Option Spelling
  | 0, chars => some ⟨[], false, chars⟩
  | fuel + 1, '\\' :: 'u' :: rest => do
    let (value, rest) ← readCodePoint rest
    let char := Char.ofNat value
    if accepts char then
      let tail ← readNameRest Text.isNamePart fuel rest
      return ⟨char :: tail.chars, true, tail.rest⟩
    else none
  | fuel + 1, char :: rest =>
    if accepts char then do
      let tail ← readNameRest Text.isNamePart fuel rest
      return ⟨char :: tail.chars, tail.isEscaped, tail.rest⟩
    else if char == '\\' then none
    else some ⟨[], false, char :: rest⟩
  | _ + 1, [] => some ⟨[], false, []⟩

def readName (chars : List Char) : Option Spelling := do
  let spelling ← readNameRest Text.isNameStart (chars.length + 1) chars
  if spelling.chars.isEmpty then none else some spelling

/-- Digits with single underscores between them. -/
def separatedDigits (accepts : Char → Bool) (chars : List Char) :
    Option (List Char) :=
  let digits := chars.takeWhile fun char => accepts char || char == '_'
  let rest := chars.drop digits.length
  match digits, digits.getLast? with
  | first :: _, some last =>
    if first == '_' || last == '_' ||
        (digits.zip digits.tail).any (fun pair => pair.1 == '_' && pair.2 == '_')
    then none else some rest
  | _, _ => none

def readExponent : List Char → Option (List Char)
  | char :: rest =>
    if char == 'e' || char == 'E' then
      match rest with
      | '+' :: digits => separatedDigits Char.isDigit digits
      | '-' :: digits => separatedDigits Char.isDigit digits
      | digits => separatedDigits Char.isDigit digits
    else some (char :: rest)
  | [] => some []

/-- The digits after a decimal point, which may be missing. -/
def readFraction (chars : List Char) : Option (List Char) :=
  match chars with
  | char :: _ =>
    if char.isDigit then separatedDigits Char.isDigit chars else some chars
  | [] => some []

/-- A number after which no name or digit may follow directly. -/
def finishNumber (kind : TokenKind) (rest : List Char) :
    Option (TokenKind × List Char) :=
  match rest with
  | char :: _ =>
    if Text.isNamePart char || char == '\\' then none else some (kind, rest)
  | [] => some (kind, rest)

/-- A number in a base of its own. -/
def readRadix (accepts : Char → Bool) (chars : List Char) :
    Option (TokenKind × List Char) := do
  match ← separatedDigits accepts chars with
  | 'n' :: rest => finishNumber .bigint rest
  | rest => finishNumber .number rest

def readNumber : List Char → Option (TokenKind × List Char)
  | '0' :: 'x' :: rest => readRadix (fun char => (hexDigit? char).isSome) rest
  | '0' :: 'X' :: rest => readRadix (fun char => (hexDigit? char).isSome) rest
  | '0' :: 'o' :: rest => readRadix (fun char => '0' ≤ char && char ≤ '7') rest
  | '0' :: 'O' :: rest => readRadix (fun char => '0' ≤ char && char ≤ '7') rest
  | '0' :: 'b' :: rest => readRadix (fun char => char == '0' || char == '1') rest
  | '0' :: 'B' :: rest => readRadix (fun char => char == '0' || char == '1') rest
  | '.' :: rest => do
    finishNumber .number
      (← readExponent (← separatedDigits Char.isDigit rest))
  | chars => do
    let leadingZero := chars.head? == some '0'
    let digits := chars.takeWhile Char.isDigit
    if leadingZero && digits.length > 1 then
      let rest := chars.drop digits.length
      if digits.all (fun char => char ≤ '7') then finishNumber .number rest
      else
        match rest with
        | '.' :: rest =>
          finishNumber .number (← readExponent (← readFraction rest))
        | rest => finishNumber .number (← readExponent rest)
    else
      match ← separatedDigits Char.isDigit chars with
      | 'n' :: rest => finishNumber .bigint rest
      | '.' :: rest =>
        finishNumber .number (← readExponent (← readFraction rest))
      | rest => finishNumber .number (← readExponent rest)

/-- The character that a code point stands for in a string. -/
def codePointChar (value : Nat) : Char :=
  if 0xd800 ≤ value && value ≤ 0xdfff then Char.ofNat 0xfffd
  else Char.ofNat value

/-- An escape of a string whose backslash has been read. -/
def readEscape : List Char → Option (List Char × List Char)
  | 'n' :: rest => some (['\n'], rest)
  | 't' :: rest => some (['\t'], rest)
  | 'r' :: rest => some (['\r'], rest)
  | 'b' :: rest => some (['\x08'], rest)
  | 'v' :: rest => some (['\x0b'], rest)
  | 'f' :: rest => some (['\x0c'], rest)
  | '\r' :: '\n' :: rest => some ([], rest)
  | 'x' :: first :: second :: rest => do
    return ([codePointChar (← hexValue? [first, second])], rest)
  | 'x' :: _ => none
  | 'u' :: rest => do
    let (value, rest) ← readCodePoint rest
    if 0xd800 ≤ value && value ≤ 0xdbff then
      match rest with
      | '\\' :: 'u' :: more =>
        match readCodePoint more with
        | some (low, tail) =>
          if 0xdc00 ≤ low && low ≤ 0xdfff then
            let joined := 0x10000 + (value - 0xd800) * 0x400 + (low - 0xdc00)
            return ([Char.ofNat joined], tail)
          else return ([codePointChar value], rest)
        | none => return ([codePointChar value], rest)
      | _ => return ([codePointChar value], rest)
    else return ([codePointChar value], rest)
  | char :: rest =>
    if isLineBreak char then some ([], rest)
    else if '0' ≤ char && char ≤ '7' then
      let digits := (char :: rest).takeWhile fun c => '0' ≤ c && c ≤ '7'
      let count := if char ≤ '3' then min 3 digits.length else min 2 digits.length
      let value := (digits.take count).foldl
        (fun total digit => total * 8 + (digit.toNat - '0'.toNat)) 0
      some ([Char.ofNat value], (char :: rest).drop count)
    else some ([char], rest)
  | [] => none

/-- The rest of a string up to its closing quote. -/
def readStringRest (quote : Char) :
    (fuel : Nat) → (chars : List Char) → Option (List Char × List Char)
  | 0, _ => none
  | fuel + 1, '\\' :: rest => do
    let (decoded, rest) ← readEscape rest
    let (tail, rest) ← readStringRest quote fuel rest
    return (decoded ++ tail, rest)
  | fuel + 1, char :: rest =>
    if char == quote then some ([], rest)
    else if char == '\n' || char == '\r' then none
    else do
      let (tail, rest) ← readStringRest quote fuel rest
      return (char :: tail, rest)
  | _ + 1, [] => none

def readMark (chars : List Char) : Option (Mark × List Char) :=
  match chars with
  | '?' :: '.' :: rest =>
    match rest with
    | digit :: _ =>
      if digit.isDigit then some (.question, '.' :: rest)
      else some (.questionDot, rest)
    | [] => some (.questionDot, rest)
  | chars =>
    (Mark.spellings.find? fun entry => entry.1.isPrefixOf chars).map fun entry =>
      (entry.2, chars.drop entry.1.length)

/-- The token at the front of a text that is neither blank nor a comment. -/
def readKind (chars : List Char) : Option (TokenKind × List Char) :=
  match chars with
  | [] => some (.endOfText, [])
  | '"' :: rest => do
    let (value, rest) ← readStringRest '"' (rest.length + 1) rest
    return (.string (String.ofList value), rest)
  | '\'' :: rest => do
    let (value, rest) ← readStringRest '\'' (rest.length + 1) rest
    return (.string (String.ofList value), rest)
  | '#' :: rest => do
    let spelling ← readName rest
    return (.privateName (String.ofList spelling.chars), spelling.rest)
  | '.' :: second :: rest =>
    if second.isDigit then readNumber ('.' :: second :: rest)
    else (readMark ('.' :: second :: rest)).map fun read => (.mark read.1, read.2)
  | char :: rest =>
    if char.isDigit then readNumber (char :: rest)
    else if char == '\\' || Text.isNameStart char then do
      let spelling ← readName (char :: rest)
      return (.word (String.ofList spelling.chars) spelling.isEscaped,
        spelling.rest)
    else (readMark (char :: rest)).map fun read => (.mark read.1, read.2)

/-- Flags that a regular expression may have, each at most once. -/
def regexFlags : List Char := ['d', 'g', 'i', 'm', 's', 'u', 'v', 'y']

/-- The body of a regular expression whose opening slash has been read. -/
def readRegexBody (inClass : Bool) : List Char → Option (List Char)
  | [] => none
  | '\\' :: escaped :: rest =>
    if isLineBreak escaped then none else readRegexBody inClass rest
  | char :: rest =>
    if isLineBreak char || char == '\\' then none
    else if char == '/' && !inClass then some rest
    else if char == '[' then readRegexBody true rest
    else if char == ']' then readRegexBody false rest
    else readRegexBody inClass rest

def readRegex (chars : List Char) : Option (List Char) := do
  let rest ← readRegexBody false chars
  let flags := rest.takeWhile Text.isNamePart
  if flags.all regexFlags.contains && flags.Nodup then
    some (rest.drop flags.length)
  else none

/-- How a stretch of template text ends. -/
inductive TemplateEnd where
  | closed
  | expression

/-- Whether the characters after a backslash form an escape. -/
def isEscape (chars : List Char) : Bool :=
  match chars with
  | '0' :: digit :: _ => !digit.isDigit
  | '0' :: [] => true
  | char :: _ => !char.isDigit && (readEscape chars).isSome
  | [] => false

/--
Template text up to a backquote or an opening `$` and brace.  Returns how it
ended, whether all its escapes are well formed, and the characters from the
closing mark on.
-/
def readTemplate : List Char → Option (TemplateEnd × Bool × List Char)
  | [] => none
  | '\\' :: char :: rest => do
    let (ending, sound, tail) ← readTemplate rest
    return (ending, sound && isEscape (char :: rest), tail)
  | '\x60' :: rest => some (.closed, true, '\x60' :: rest)
  | '$' :: '{' :: rest => some (.expression, true, '$' :: '{' :: rest)
  | _ :: rest => readTemplate rest

/-- Text between markup tags, up to a brace or an opening angle. -/
def readMarkupText : List Char → Option (List Char)
  | [] => none
  | char :: rest =>
    if char == '{' || char == '<' then some (char :: rest)
    else if char == '}' || char == '>' then none
    else readMarkupText rest

/-- The quoted value of a markup attribute, which knows no escapes. -/
def readMarkupString (quote : Char) : List Char → Option (List Char × List Char)
  | [] => none
  | char :: rest =>
    if char == quote then some ([], rest)
    else (readMarkupString quote rest).map fun read => (char :: read.1, read.2)

/-- The part of a markup name after its first word. -/
def readMarkupNameRest (chars : List Char) : List Char × List Char :=
  let part := chars.takeWhile fun char => Text.isNamePart char || char == '-'
  (part, chars.drop part.length)

end Codemod.Lexer
