import Codemod.Scope.Body

/-!
# Traces

The walk over a program is written down as a list of signals before any table is
built: nodes entered, scopes opened and closed, names declared and used.  The
signals of a node are made from the signals of its parts, in the order in which
the parts stand in the text.

Some signals are announcements.  The shape and the name of a function are known
at the function and belong to the scope that opens next; how a name or a member
is used is known at the node around it and belongs to the name or member that is
reached next.  The other signals are steps, which say what is done to a table.

A scope belongs to the node that was entered last before it opened.  That is
the node which opens the scope, except where parts of the node come before its
scope: the value that a `switch` compares, and the name of a type, an
enumeration or a namespace.
-/

namespace Codemod

/-- How a name or a chain is used. -/
inductive Access where
  | read
  | write
  | delete
  deriving DecidableEq, Repr

/-- The scope, relative to the open ones, in which a name is declared. -/
inductive Reach where
  /-- The innermost scope. -/
  | innermost
  /-- The nearest scope of a function or of the whole text. -/
  | hoisted
  /-- Both of them. -/
  | both
  deriving DecidableEq, Repr

/-- What opens a scope. -/
inductive Opening where
  | text
  | block
  | staticBlock
  | function (isArrow : Bool) (name : Option (String × Span))
      (shape : Option FunctionShape)
  deriving DecidableEq, Repr

inductive Step where
  | enter (span : Span)
  | openScope (opening : Opening)
  | closeScope
  /-- The scope of a class is going to open. -/
  | expectClass (span : Span)
  | declare (reach : Reach) (name : String) (site : Site)
  | reference (name : String) (span : Span) (access : Access)
  | member (chain : MemberChain) (span : Span) (access : Access)
  | superCall (span : Span)
  deriving DecidableEq, Repr

inductive Signal where
  /-- A step for which nothing has to be announced. -/
  | step (step : Step)
  /-- The scope of a function with this shape is going to open. -/
  | expectFunction (shape : Option FunctionShape)
  /-- The function whose scope is going to open declares this name in it. -/
  | expectName (name : String) (span : Span)
  /-- The next name or member is going to be used in this way. -/
  | expectAccess (access : Access)
  | openFunction (isArrow : Bool)
  | reference (name : String) (span : Span)
  /-- A member, and its chain if it forms one. -/
  | member (chain : Option MemberChain) (span : Span)
  deriving DecidableEq, Repr

/-- Whether entering a node of this kind is a step of its own. -/
def Kind.isEntered : Kind → Bool
  | .reference _ => false
  | .templatePart => false
  | .heritage => false
  | .targetShorthand => false
  | .attributes => false
  | .interfaceBody => false
  | .typeForm .array => false
  | .typeForm .tuple => false
  | .typeForm .optional => false
  | .typeForm .rest => false
  | .typeForm .operator => false
  | .typeForm .function => false
  | .typeForm .constructor => false
  | .typeForm .predicate => false
  | .signature .call => false
  | .signature .index => false
  | _ => true

namespace Trace

def enterNode (kind : Kind) (span : Span) : List Step :=
  if kind.isEntered then [.enter span] else []

def declarePattern (reach : Reach) (kind : DeclarationKind)
    (declarator : Option DeclaratorInfo) (pattern : Node) : List Step :=
  pattern.patternNames.map fun entry =>
    .declare reach entry.name ⟨entry.span, kind, entry.place, declarator⟩

def declareName (reach : Reach) (kind : DeclarationKind) (node : Node) :
    List Step :=
  match node.kind with
  | .binding name => [.declare reach name ⟨node.span, kind, .direct, none⟩]
  | _ => []

def parameterPattern? (parameter : Node) : Option Node :=
  match parameter with
  | .mk (.parameter _) _ children => children.getLast?
  | .mk .rest _ [pattern] => some pattern
  | _ => none

def declareParameters (parameters : List Node) : List Step :=
  (parameters.filterMap parameterPattern?).flatMap
    (declarePattern .innermost .parameter none)

def declareVariables (keyword : VariableKeyword) (declarators : List Node) :
    List Step :=
  let reach := if keyword == .var then Reach.hoisted else Reach.innermost
  declarators.flatMap fun declarator =>
    match declarator with
    | .mk .declarator span (pattern :: _) =>
      declarePattern reach (.variableName keyword)
        (some ⟨span, declarator.declaratorValue?.bind Node.chain?⟩) pattern
    | _ => []

def declareImports (specifiers : List Node) : List Step :=
  specifiers.flatMap fun specifier =>
    match specifier.kind, specifier.children.getLast? with
    | .importSpecifier, some name => declareName .innermost .imported name
    | .importDefault, some name => declareName .innermost .imported name
    | .importNamespace, some name => declareName .innermost .imported name
    | _, _ => []

/-- The name among the parts of a function or a class. -/
def givenName? (children : List Node) : Option (String × Span) :=
  children.findSome? fun child =>
    match child with
    | .mk (.binding name) span _ => some (name, span)
    | _ => none

/-- Declare the name that a function or a class is given. -/
def declareGiven (reach : Reach) (kind : DeclarationKind) (children : List Node) :
    List Step :=
  (givenName? children).toList.map fun entry =>
    .declare reach entry.1 ⟨entry.2, kind, .direct, none⟩

end Trace

/-- Whether a node is a name or a member, in parentheses or not. -/
def Node.takesAccess : Node → Bool
  | .mk (.reference _) _ _ => true
  | .mk (.member _ _) _ _ => true
  | .mk .parenthesized _ (inner :: _) => takesAccess inner
  | _ => false

namespace Signals

open Codemod.Trace

/-- A part of a node with its signals. -/
abbrev Part : Type := Node × List Signal

/-- The signals of parts, one after the other. -/
def each (parts : List Part) : List Signal :=
  parts.flatMap fun part => part.2

/-- The signals of parts whose places are entered before the parts themselves. -/
def places (parts : List Part) : List Signal :=
  parts.flatMap fun part => .step (.enter part.1.span) :: part.2

/-- The signals of a part whose access is announced, if it takes one. -/
def announced (access : Access) (part : Part) : List Signal :=
  if part.1.takesAccess then .expectAccess access :: part.2 else part.2

/-- The signals of parts that are used in some way; the announcement ends with the part. -/
def used (access : Access) (parts : List Part) : List Signal :=
  parts.flatMap fun part => announced access part ++ [.expectAccess .read]

def within (opening : Signal) (inside : List Signal) : List Signal :=
  opening :: inside ++ [.step .closeScope]

def inBlock (inside : List Signal) : List Signal :=
  within (.step (.openScope .block)) inside

def function (form : FunctionForm) (span : Span) (parts : List Part) :
    List Signal :=
  let children := parts.map (·.1)
  let shape := (Node.functionBody? children).map (Node.blockShape span false)
  let given :=
    if form.role == .declaration && shape.isSome then
      (declareGiven .both .function children).map .step
    else (givenName? children).toList.map fun entry => .expectName entry.1 entry.2
  given ++ .expectFunction shape :: .step (.enter span) ::
    within (.openFunction false) (each parts)

def arrow (hasExpressionBody : Bool) (span : Span) (parts : List Part) :
    List Signal :=
  let shape :=
    if hasExpressionBody then
      (parts.getLast?).map fun body => Node.expressionShape span body.1
    else
      (Node.functionBody? (parts.map (·.1))).map (Node.blockShape span true)
  let body := parts.getLast?.toList
  .expectFunction shape :: .step (.enter span) ::
    within (.openFunction true) (each parts.dropLast ++ places body)

/-- Whether the part stands before the scope of a class opens. -/
def precedesClassScope (part : Part) : Bool :=
  match part.1.kind with
  | .decorator => true
  | .binding _ => true
  | _ => false

def classDefinition (span : Span) (parts : List Part) : List Signal :=
  let declared := declareGiven .innermost .classDefinition (parts.map (·.1))
  let before := parts.takeWhile precedesClassScope
  let inside := parts.dropWhile precedesClassScope
  declared.map .step ++ .step (.expectClass span) :: .step (.enter span) :: each before ++
    inBlock (each inside)

/-- A definition whose name stands before its scope. -/
def named (span : Span) (parts : List Part) : List Signal :=
  .step (.enter span) :: each (parts.take 1) ++ inBlock (each (parts.drop 1))

/-- A part with a key; the key's place is entered first. -/
def keyed (span : Span) (parts : List Part) : List Signal :=
  let isDecorator (part : Part) : Bool := part.1.kind == .decorator
  let rest := parts.dropWhile isDecorator
  .step (.enter span) :: each (parts.takeWhile isDecorator) ++
    places (rest.take 1) ++ each (rest.drop 1)

/-- Put the signals of the parts of a node together. -/
def assemble (kind : Kind) (span : Span) (parts : List Part) : List Signal :=
  let children := parts.map (·.1)
  let enter := Signal.step (.enter span)
  match kind with
  | .reference name => [.reference name span]
  | .member _ _ => .member (Node.mk kind span children).chain? span :: enter :: each parts
  | .target => enter :: used .write parts
  | .targetShorthand =>
    (parts.take 1).flatMap (announced .write) ++ each (parts.drop 1)
  | .unary .delete => enter :: used .delete parts
  | .unary _ => enter :: each parts ++ [.expectAccess .read]
  | .call _ =>
    (if (Node.mk kind span children).isSuperCall then [.step (.superCall span)] else []) ++
      enter :: each (parts.take 1) ++ places (parts.drop 1)
  | .construction => enter :: each (parts.take 1) ++ places (parts.drop 1)
  | .array => enter :: places parts
  | .property _ _ => keyed span parts
  | .patternProperty _ _ => keyed span parts
  | .targetProperty _ => keyed span parts
  | .method _ _ => keyed span parts
  | .field _ _ => keyed span parts
  | .accessorField _ _ => keyed span parts
  | .markupOpening => enter :: places (parts.take 1) ++ each (parts.drop 1)
  | .markupClosing => enter :: places parts
  | .markupMember => enter :: places (parts.take 1) ++ each (parts.drop 1)
  | .typeForm .reference => enter :: places (parts.take 1) ++ each (parts.drop 1)
  | .typeForm .query => enter :: places (parts.take 1) ++ each (parts.drop 1)
  | .implements => enter :: places (parts.take 1) ++ each (parts.drop 1)
  | .qualifiedName => enter :: places (parts.take 1) ++ each (parts.drop 1)
  | .program => enter :: within (.step (.openScope .text)) (each parts)
  | .block => enter :: inBlock (each parts)
  | .forStatement => enter :: inBlock (each parts)
  | .forIn => enter :: inBlock (each parts)
  | .forOf => enter :: inBlock (each parts)
  | .catchClause => enter :: inBlock (each parts)
  | .staticBlock => enter :: within (.step (.openScope .staticBlock)) (each parts)
  | .switchStatement => named span parts
  | .typeAlias => named span parts
  | .interfaceDeclaration => named span parts
  | .enumDeclaration => named span parts
  | .namespaceDeclaration => named span parts
  | .typeForm .conditional =>
    enter :: each (parts.take 1) ++ inBlock (each ((parts.drop 1).take 2)) ++
      each (parts.drop 3)
  | .typeForm .mapped => enter :: inBlock (each parts)
  | .typeForm .function => inBlock (each parts)
  | .typeForm .constructor => inBlock (each parts)
  | .signature .method => enter :: inBlock (keyed span parts)
  | .signature .construct => enter :: inBlock (each parts)
  | .signature .property => keyed span parts
  | .function form => function form span parts
  | .arrow _ hasExpressionBody => arrow hasExpressionBody span parts
  | .classDefinition _ => classDefinition span parts
  | .parameters => (declareParameters children).map .step ++ enter :: each parts
  | .catchParameter =>
    (children.flatMap (declarePattern .innermost .catchParameter none)).map .step ++
      enter :: each parts
  | .importDeclaration _ _ => (declareImports children).map .step ++ enter :: each parts
  | .variableList keyword =>
    (declareVariables keyword children).map .step ++ enter :: each parts
  | kind => (enterNode kind span).map .step ++ each parts

end Signals

/-- The signals of the walk over a tree. -/
def Node.signals : Node → List Signal :=
  fold Signals.assemble

end Codemod
