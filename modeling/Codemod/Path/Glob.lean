/-!
# Glob patterns

Patterns of paths: `?` stands for one character, `*` for any run of characters
within a component, `**` for any run of components, and brackets for one
character of a set.  A match ends in one of three ways, because running out of
text ends the search early.
-/

namespace Codemod

inductive GlobMember where
  | single (char : Char)
  | range (first last : Char)
  deriving DecidableEq, Repr

inductive GlobPart where
  | char (value : Char)
  | anyChar
  | oneOf (members : List GlobMember)
  | noneOf (members : List GlobMember)
  /-- A run of characters. -/
  | run
  /-- A run of whole components. -/
  | deepRun
  deriving DecidableEq, Repr

/-- How patterns are compared with texts. -/
structure GlobRules where
  isCaseSensitive : Bool
  /-- Only a slash in the pattern stands for a slash. -/
  keepsComponents : Bool
  deriving DecidableEq, Repr

inductive GlobOutcome where
  | matched
  | failed
  /-- The text ended before the pattern did. -/
  | exhausted
  deriving DecidableEq, Repr

namespace Glob

/-- The members between brackets; `x-y` is a range. -/
def members : List Char → List GlobMember
  | first :: '-' :: last :: rest => .range first last :: members rest
  | char :: rest => .single char :: members rest
  | [] => []

/-- Split a set's text, whose first character is always a member, at its end. -/
def splitSet : List Char → Option (List Char × List Char)
  | [] => none
  | first :: rest =>
    let inside := rest.takeWhile (· != ']')
    match rest.dropWhile (· != ']') with
    | _ :: after => some (first :: inside, after)
    | [] => none

/--
The parts of a pattern, given the character before it; nothing if `**` is not a
whole component, if three stars follow each other, or if a set has no end.
-/
def parseFrom : (fuel : Nat) → Option Char → List Char → Option (List GlobPart)
  | 0, _, _ => none
  | _ + 1, _, [] => some []
  | fuel + 1, _, '?' :: rest =>
    (parseFrom fuel (some '?') rest).map (.anyChar :: ·)
  | _ + 1, _, '*' :: '*' :: '*' :: _ => none
  | fuel + 1, previous, '*' :: '*' :: rest =>
    if previous.all (· == '/') then
      match rest with
      | [] => some [.deepRun]
      | '/' :: rest => (parseFrom fuel (some '/') rest).map (.deepRun :: ·)
      | _ => none
    else none
  | fuel + 1, _, '*' :: rest => (parseFrom fuel (some '*') rest).map (.run :: ·)
  | fuel + 1, _, '[' :: '!' :: rest => do
    let (inside, after) ← splitSet rest
    return .noneOf (members inside) :: (← parseFrom fuel (some ']') after)
  | fuel + 1, _, '[' :: rest => do
    let (inside, after) ← splitSet rest
    return .oneOf (members inside) :: (← parseFrom fuel (some ']') after)
  | fuel + 1, _, char :: rest =>
    (parseFrom fuel (some char) rest).map (.char char :: ·)

def parse? (pattern : List Char) : Option (List GlobPart) :=
  parseFrom (pattern.length + 1) none pattern

def isAscii (char : Char) : Bool :=
  char.toNat < 128

def sameChar (rules : GlobRules) (left right : Char) : Bool :=
  if !rules.isCaseSensitive && isAscii left && isAscii right then
    left.toLower == right.toLower
  else left == right

/-- Whether a character belongs to a member of a set. -/
def memberHolds (rules : GlobRules) (char : Char) : GlobMember → Bool
  | .single value => sameChar rules char value
  | .range first last =>
    let isFolded := !rules.isCaseSensitive && isAscii char && first.isAlpha &&
      last.isAlpha
    (isFolded && first.toLower ≤ char.toLower && char.toLower ≤ last.toLower) ||
      (first ≤ char && char ≤ last)

/-- Whether one part of a pattern stands for a character. -/
def accepts (rules : GlobRules) (part : GlobPart) (char : Char) : Bool :=
  let isKept := rules.keepsComponents && char == '/'
  match part with
  | .char value => sameChar rules char value
  | .anyChar => !isKept
  | .oneOf members => !isKept && members.any (memberHolds rules char)
  | .noneOf members => !isKept && !members.any (memberHolds rules char)
  | .run => false
  | .deepRun => false

/-- Try the rest of a pattern after ever longer runs of a text. -/
def sweep (rules : GlobRules) (isDeep : Bool) (next : List Char → GlobOutcome) :
    List Char → GlobOutcome
  | [] => next []
  | char :: rest =>
    if isDeep && char != '/' then sweep rules isDeep next rest
    else if !isDeep && rules.keepsComponents && char == '/' then .failed
    else
      match next rest with
      | .failed => sweep rules isDeep next rest
      | outcome => outcome

def compare (rules : GlobRules) : List GlobPart → List Char → GlobOutcome
  | [], [] => .matched
  | [], _ :: _ => .failed
  | .run :: parts, text =>
    match compare rules parts text with
    | .failed => sweep rules false (compare rules parts) text
    | outcome => outcome
  | .deepRun :: parts, text =>
    match compare rules parts text with
    | .failed => sweep rules true (compare rules parts) text
    | outcome => outcome
  | _ :: _, [] => .exhausted
  | part :: parts, char :: text =>
    if accepts rules part char then compare rules parts text else .failed

def isMatch (rules : GlobRules) (parts : List GlobPart) (text : List Char) : Bool :=
  compare rules parts text == .matched

end Glob

end Codemod
