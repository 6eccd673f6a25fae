import Codemod.Parser.Name

/-!
# Templates

Text between backquotes with parts in braces.  Template text is read straight
from the characters, since it has no tokens of its own.
-/

namespace Codemod.Parser

/-- A stretch of template text. -/
structure TemplateText where
  node : Node
  ending : Lexer.TemplateEnd
  /-- Whether every escape in it is well formed. -/
  isSound : Bool

/-- The text after the next token, with the mark that ends it. -/
def templateText : Parser TemplateText := do
  let current ← state
  match Lexer.readTemplate current.rest with
  | none => fail
  | some (ending, isSound, rest) =>
    let start := current.token.span.stop
    let stop := start + bytesBetween current.rest rest
    let width := match ending with
      | .closed => 1
      | .expression => 2
    match tokenAt (stop + width) (stop + width) current.comments
        current.covers (rest.drop width) with
    | none => fail
    | some next =>
      setState next
      return ⟨.mk .templatePart ⟨start, stop⟩ [], ending, isSound⟩

/-- The parts of a template, of which at most `fuel` are text. -/
def templatePartsWithin (item : Parser Node) :
    (fuel : Nat) → Parser (List Node × Bool)
  | 0 => fail
  | fuel + 1 => do
    let text ← templateText
    match text.ending with
    | .closed => return ([text.node], text.isSound)
    | .expression =>
      let value ← item
      require (← isAt .closeBrace)
      let (parts, areSound) ← templatePartsWithin item fuel
      return (text.node :: value :: parts, text.isSound && areSound)

/--
The parts of a template whose opening backquote is next, and whether all their
escapes are well formed.
-/
def templateParts (item : Parser Node) : Parser (List Node × Bool) := do
  templatePartsWithin item ((← state).here.length + 1)

end Codemod.Parser
