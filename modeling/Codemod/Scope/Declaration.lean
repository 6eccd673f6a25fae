import Codemod.Scope.Chain

/-!
# Declarations

Where a name is declared, by what, and at which place of a pattern.  The names
of a pattern are listed from left to right; only the properties of its
outermost object pattern are told apart from what lies deeper.
-/

namespace Codemod

inductive DeclarationKind where
  | variableName (keyword : VariableKeyword)
  | parameter
  | function
  | classDefinition
  | catchParameter
  | imported
  /-- The name of a function expression, known inside it. -/
  | functionName
  deriving DecidableEq, Repr

/-- Where in a pattern a name stands. -/
inductive PatternPlace where
  /-- The name is the whole pattern. -/
  | direct
  /-- The value of a property of the outermost object pattern. -/
  | property (key : Option String) (hasDefault : Bool)
  /-- What remains of the outermost object pattern. -/
  | rest
  /-- Anywhere deeper. -/
  | nested
  deriving DecidableEq, Repr

/-- The declarator that a name belongs to. -/
structure DeclaratorInfo where
  span : Span
  /-- The chain that its value spells. -/
  value : Option MemberChain
  deriving DecidableEq, Repr

/-- One place that declares a name. -/
structure Site where
  span : Span
  kind : DeclarationKind
  place : PatternPlace
  declarator : Option DeclaratorInfo
  deriving DecidableEq, Repr

namespace DeclarationKind

def isVariable : DeclarationKind → Bool
  | variableName _ => true
  | _ => false

end DeclarationKind

namespace Site

/--
Whether the name is taken, under its own name and without a default, from a
property of the chain.
-/
def isPropertyOf (site : Site) (name : String) (chain : MemberChain) : Bool :=
  site.kind.isVariable && site.place == .property (some name) false &&
    (site.declarator.bind (·.value)) == some chain

/-- Where the declaration is complete. -/
def declaredEnd (site : Site) : Nat :=
  match site.declarator with
  | some declarator => declarator.span.stop
  | none => site.span.stop

end Site

structure PatternName where
  name : String
  span : Span
  place : PatternPlace
  deriving DecidableEq, Repr

namespace Node

/-- The key of a property that is known without running anything. -/
def staticKey? (isComputed : Bool) (key : Node) : Option String :=
  match key.kind with
  | .name text => if isComputed then none else some text
  | .stringLiteral value => some value
  | _ => none

/-- The names that a pattern declares, from left to right. -/
def declaredNames : Node → List (String × Span) :=
  fold fun kind span children =>
    match kind, children with
    | .binding name, _ => [(name, span)]
    | .objectPattern, children => children.flatMap (·.2)
    | .arrayPattern, children => children.flatMap (·.2)
    | .rest, children => children.flatMap (·.2)
    | .patternProperty true _, (_, names) :: _ => names
    | .patternProperty false _, [_, (_, names)] => names
    | .patternDefault, (_, names) :: _ => names
    | .parameter _, children => children.flatMap (·.2)
    | .catchParameter, children => children.flatMap (·.2)
    | _, _ => []

/-- The names of a pattern that lies inside another one. -/
def nestedNames (pattern : Node) : List PatternName :=
  pattern.declaredNames.map fun entry => ⟨entry.1, entry.2, .nested⟩

/-- The name of a shorthand property or of its default. -/
def shorthandName? : Node → Option String
  | mk (.binding name) _ _ => some name
  | mk .patternDefault _ (mk (.binding name) _ _ :: _) => some name
  | _ => none

/-- The static key of a property of an object pattern. -/
def propertyKey? : Node → Option String
  | mk (.patternProperty true _) _ (value :: _) => value.shorthandName?
  | mk (.patternProperty false isComputed) _ (key :: _) =>
    key.staticKey? isComputed
  | _ => none

/-- The value pattern of a property of an object pattern. -/
def propertyValue? : Node → Option Node
  | mk (.patternProperty _ _) _ children => children.getLast?
  | _ => none

/-- The names of a part of the outermost object pattern. -/
def propertyNames (part : Node) : List PatternName :=
  match part with
  | mk .rest _ (mk (.binding name) span _ :: _) => [⟨name, span, .rest⟩]
  | mk .rest _ (argument :: _) => argument.nestedNames
  | part =>
    match part.propertyValue? with
    | some (mk (.binding name) span _) =>
      [⟨name, span, .property part.propertyKey? false⟩]
    | some (mk .patternDefault _ (mk (.binding name) span _ :: _)) =>
      [⟨name, span, .property part.propertyKey? true⟩]
    | some value => value.nestedNames
    | none => []

/-- The names that a pattern declares, with their places. -/
def patternNames : Node → List PatternName
  | mk (.binding name) span _ => [⟨name, span, .direct⟩]
  | mk .objectPattern _ parts => parts.flatMap propertyNames
  | mk .patternDefault _ (pattern :: _) => patternNames pattern
  | pattern => pattern.nestedNames

end Node

end Codemod
