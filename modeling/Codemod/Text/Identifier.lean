import Codemod.Text.IdentifierTable

/-!
# Characters of names

Which characters start and continue a name in a source text.  ASCII is decided
directly and the rest by the tables of Unicode.
-/

namespace Codemod.Text

/-- Whether a code point, counted from the first one of the runs, is in. -/
def inRuns : (runs : List Nat) → (code : Nat) → Bool
  | out :: within :: rest, code =>
    if code < out then false
    else if code < out + within then true
    else inRuns rest (code - out - within)
  | _, _ => false

/-- An ASCII letter, underscore or dollar sign. -/
def isPlainStart (char : Char) : Bool :=
  char.isAlpha || char == '_' || char == '$'

/-- An ASCII letter, digit, underscore or dollar sign. -/
def isPlainPart (char : Char) : Bool :=
  char.isAlphanum || char == '_' || char == '$'

def isNameStart (char : Char) : Bool :=
  isPlainStart char ||
    (char.toNat ≥ 0x80 && inRuns identifierStartRuns (char.toNat - 0x80))

/-- Whether a name may continue with the character. -/
def isNamePart (char : Char) : Bool :=
  isPlainPart char ||
    (char.toNat ≥ 0x80 &&
      (inRuns identifierStartRuns (char.toNat - 0x80) ||
        inRuns identifierExtendRuns (char.toNat - 0x80)))

def isPlainName (name : String) : Bool :=
  match name.toList with
  | [] => false
  | first :: rest => isPlainStart first && rest.all isPlainPart

end Codemod.Text
