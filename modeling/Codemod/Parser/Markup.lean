import Codemod.Parser.Types

/-!
# Markup

Elements written with angles inside expressions.  Text between tags is read
straight from the characters, so an element's parser stops at its last angle
and leaves it to the caller to read on as text or as tokens.
-/

namespace Codemod

/-- The words and marks of a tag, for comparing an opening and a closing one. -/
def Node.tagPath : Node → List String
  | mk (.reference name) _ _ => [name]
  | mk (.markupName text) _ _ => [text]
  | mk .thisExpression _ _ => ["this"]
  | mk .markupNamespaced _ [space, name] => tagPath space ++ ":" :: tagPath name
  | mk .markupMember _ [object, name] => tagPath object ++ "." :: tagPath name
  | _ => []

namespace Parser

/-- A node from an offset to the end of the next token, which is not passed. -/
def nodeThrough (start : Nat) (kind : Kind) (children : List Node) :
    Parser Node := do
  return .mk kind ⟨start, (← token).span.stop⟩ children

/-- A word of markup, in which dashes may stand. -/
def markupWord : Parser (String × Span) := do
  let current ← state
  match current.token.kind with
  | .word word _ =>
    let (part, rest) := Lexer.readMarkupNameRest current.rest
    let span := ⟨current.token.span.start,
      current.token.span.stop + Text.byteLength part⟩
    setState { current with
      token := { current.token with span := span }
      rest := rest }
    advance
    return (word ++ String.ofList part, span)
  | _ => fail

/-- Whether a tag names a declared value rather than a built-in element. -/
def namesValue (tag : String) : Bool :=
  match tag.toList with
  | first :: _ => first.isUpper || first == '_' || first == '$'
  | [] => false

def markupTag : Parser Node := do
  let (word, span) ← markupWord
  if ← eat .colon then
    let (name, nameSpan) ← markupWord
    nodeFrom span.start .markupNamespaced
      [.mk (.markupName word) span [], .mk (.markupName name) nameSpan []]
  else if ← isAt .dot then
    let root : Node :=
      if word == "this" then .mk .thisExpression span []
      else .mk (.reference word) span []
    extend (fun object => do
      if ← eat .dot then
        let (name, nameSpan) ← markupWord
        return some (← nodeFrom span.start .markupMember
          [object, .mk (.markupName name) nameSpan []])
      else return none) root
  else if word == "this" then return .mk .thisExpression span []
  else if namesValue word then return .mk (.reference word) span []
  else return .mk (.markupName word) span []

def markupAttributeName : Parser Node := do
  let (word, span) ← markupWord
  if ← eat .colon then
    let (name, nameSpan) ← markupWord
    nodeFrom span.start .markupNamespaced
      [.mk (.markupName word) span [], .mk (.markupName name) nameSpan []]
  else return .mk (.markupName word) span []

/-- The quoted value of an attribute whose equals sign is next, if quoted. -/
def markupString? : Parser (Option Node) := do
  let current ← state
  match Lexer.skipTrivia .blank current.token.span.stop false current.comments
      current.rest with
  | none => fail
  | some trivia =>
    match trivia.rest with
    | quote :: text =>
      if quote == '"' || quote == '\'' then
        match Lexer.readMarkupString quote text with
        | none => fail
        | some (value, rest) =>
          let stop := trivia.offset + 2 + Text.byteLength value
          match tokenAt stop stop trivia.comments current.covers rest with
          | none => fail
          | some next =>
            setState next
            return some (.mk (.stringLiteral (String.ofList value))
              ⟨trivia.offset, stop⟩ [])
      else return none
    | [] => return none

def markupAttribute (grammar : Grammar) : Parser Node := do
  let start ← position
  if ← eat .openBrace then
    expect .ellipsis
    let argument ← grammar.assignment
    expect .closeBrace
    nodeFrom start .markupSpread [argument]
  else
    let name ← markupAttributeName
    if ← isAt .assign then
      match ← markupString? with
      | some value => nodeFrom start .markupAttribute [name, value]
      | none =>
        advance
        let valueStart ← position
        if ← eat .openBrace then
          let expression ← expression grammar
          expect .closeBrace
          let value ← nodeFrom valueStart .markupContainer [expression]
          nodeFrom start .markupAttribute [name, value]
        else
          let value ← grammar.markup
          advance
          nodeFrom start .markupAttribute [name, value]
    else nodeFrom start .markupAttribute [name]

/-- A part in braces between tags, up to its closing brace. -/
def markupPart (grammar : Grammar) : Parser Node := do
  let start ← position
  expect .openBrace
  if ← isAt .closeBrace then
    let empty : Node := .mk .markupEmpty
      ⟨start + 1, (← token).span.start⟩ []
    nodeThrough start .markupContainer [empty]
  else if ← eat .ellipsis then
    let argument ← expression grammar
    require (← isAt .closeBrace)
    nodeThrough start .markupSpreadChild [argument]
  else
    let expression ← expression grammar
    require (← isAt .closeBrace)
    nodeThrough start .markupContainer [expression]

/--
What stands between tags, from the end of the next token to the closing tag,
whose angle is left as the next token.
-/
def markupChildren (grammar : Grammar) : Parser (List Node) := do
  let groups ← many do
    if ← isAt .less then return none
    else
      let current ← state
      let start := current.token.span.stop
      match Lexer.readMarkupText current.rest with
      | none => fail
      | some rest =>
        let stop := start + bytesBetween current.rest rest
        let text : List Node :=
          if start < stop then [.mk .markupText ⟨start, stop⟩ []] else []
        match tokenAt stop stop current.comments current.covers rest with
        | none => fail
        | some next =>
          setState next
          if ← isAt .openBrace then
            return some (text ++ [← markupPart grammar])
          else if ← followedBy .slash then return some text
          else return some (text ++ [← grammar.markup])
  return groups.flatten

def enterClosing : Parser Unit := do
  expect .less
  expect .slash

/-- An element or a fragment, up to its last angle. -/
def markupElement (grammar : Grammar) : Parser Node := do
  let start ← position
  expect .less
  if ← isAt .greater then
    let children ← markupChildren grammar
    enterClosing
    require (← isAt .greater)
    nodeThrough start .markupFragment children
  else
    let tag ← markupTag
    let arguments ← typeArguments? grammar
    let attributes ← many do
      if (← isAt .greater) || (← isAt .slash) then return none
      else return some (← markupAttribute grammar)
    let parts := present [some tag, arguments] ++ attributes
    if ← eat .slash then
      require (← isAt .greater)
      let opening ← nodeThrough start .markupOpening parts
      nodeThrough start .markupElement [opening]
    else
      require (← isAt .greater)
      let opening ← nodeThrough start .markupOpening parts
      let children ← markupChildren grammar
      let closingStart ← position
      enterClosing
      let closingTag ← markupTag
      require (closingTag.tagPath == tag.tagPath)
      require (← isAt .greater)
      let closing ← nodeThrough closingStart .markupClosing [closingTag]
      nodeThrough start .markupElement (opening :: children ++ [closing])

end Parser

end Codemod
