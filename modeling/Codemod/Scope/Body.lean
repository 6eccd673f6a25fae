import Codemod.Scope.Declaration

/-!
# Function bodies

What later analyses ask about the body of a function: where its statements
start, which statement calls the parent constructor, and which statements take
an object apart.
-/

namespace Codemod

/-- A declarator at the top of a body that takes an object apart. -/
structure Destructuring where
  /-- The whole statement. -/
  statement : Span
  /-- The object pattern. -/
  pattern : Span
  /-- The chain that is taken apart. -/
  value : Option MemberChain
  /-- The static key of each property. -/
  keys : List (Option String)
  /-- Where the last property ends. -/
  lastEnd : Option Nat
  /-- Whether the pattern takes what remains. -/
  hasRest : Bool
  deriving DecidableEq, Repr

/-- A function with a body. -/
structure FunctionShape where
  span : Span
  body : Span
  isArrow : Bool
  /-- The body is an expression rather than statements. -/
  hasExpressionBody : Bool
  /-- Where the first statement starts. -/
  firstStatement : Option Nat
  /-- The first statement that calls the parent constructor. -/
  superStatement : Option Span
  destructurings : List Destructuring
  deriving DecidableEq, Repr

namespace Destructuring

def hasKey (destructuring : Destructuring) (key : String) : Bool :=
  destructuring.keys.any fun existing => existing == some key

end Destructuring

namespace FunctionShape

def bodyContains (shape : FunctionShape) (span : Span) : Bool :=
  shape.body.contains span

def inSuperStatement (shape : FunctionShape) (span : Span) : Bool :=
  shape.superStatement.any fun statement => statement.contains span

end FunctionShape

namespace Node

def isSuperCall : Node → Bool
  | mk (.call _) _ (mk .superExpression _ _ :: _) => true
  | _ => false

/-- The statements of a body or of a whole text, directives left out. -/
def bodyStatements (body : Node) : List Node :=
  body.children.filter fun child =>
    child.kind != .directive && child.kind != .hashbang

def superStatement? (statements : List Node) : Option Span :=
  (statements.find? fun statement =>
    match statement with
    | mk .expressionStatement _ [expression] => expression.isSuperCall
    | _ => false).map Node.span

def declaratorValue? : Node → Option Node
  | mk .declarator _ [_, value] => some value
  | _ => none

/-- The destructuring that a declarator of a statement does, if any. -/
def destructuring? (statement : Span) (declarator : Node) :
    Option Destructuring :=
  match declarator with
  | mk .declarator _ (mk .objectPattern span parts :: _) =>
    let properties := parts.filter fun part =>
      match part.kind with
      | .patternProperty _ _ => true
      | _ => false
    some {
      statement := statement
      pattern := span
      value := declarator.declaratorValue?.bind chain?
      keys := properties.map propertyKey?
      lastEnd := properties.getLast?.map fun property => property.span.stop
      hasRest := parts.any fun part => part.kind == .rest }
  | _ => none

def destructurings (statements : List Node) : List Destructuring :=
  statements.flatMap fun statement =>
    match statement with
    | mk (.variableList _) span declarators =>
      declarators.filterMap (destructuring? span)
    | _ => []

def blockShape (span : Span) (isArrow : Bool) (body : Node) : FunctionShape :=
  let statements := body.bodyStatements
  { span := span
    body := body.span
    isArrow := isArrow
    hasExpressionBody := false
    firstStatement := statements.head?.map fun statement => statement.span.start
    superStatement := superStatement? statements
    destructurings := destructurings statements }

def expressionShape (span : Span) (body : Node) : FunctionShape where
  span := span
  body := body.span
  isArrow := true
  hasExpressionBody := true
  firstStatement := none
  superStatement := none
  destructurings := []

def functionBody? (children : List Node) : Option Node :=
  children.find? fun child => child.kind == .functionBody

end Node

end Codemod
