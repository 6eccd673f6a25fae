import Codemod.Transform.Basic
import Codemod.Transform.Context

/-!
# Functions to arrows

A function expression that does not depend on its own context becomes an arrow
function.  A body that only returns a value, without comments, becomes that
value.  Where an arrow would be read differently than the function was, it is
put in parentheses.
-/

namespace Codemod.Arrow

def name : String := "function-to-arrow"

/-- Where an expression stands. -/
structure Slot where
  /-- A bare arrow is read there as the function was. -/
  isBare : Bool
  /-- The expression is called as a constructor. -/
  isConstructed : Bool
  deriving DecidableEq, Repr

/-- A place about which nothing is known. -/
def Slot.other : Slot :=
  ⟨false, false⟩

/-- The parts of a function expression that can become an arrow. -/
structure Parts where
  typeParameters : Option Node
  parameters : Node
  returnType : Option Node
  body : Node

def isBinding (node : Node) : Bool :=
  match node.kind with
  | .binding _ => true
  | _ => false

/--
The parts of a function expression.  There are none if the function has a name,
generates values, declares its `this` or has no body.
-/
def parts? (kind : Kind) (children : List Node) : Option Parts :=
  match kind with
  | .function ⟨.expression, _, false⟩ => do
    let parameters ← children.find? fun child => child.kind == .parameters
    let body ← children.find? fun child => child.kind == .functionBody
    let hasThis := parameters.children.any fun child =>
      child.kind == .thisParameter
    if children.any isBinding || hasThis then none
    else
      some {
        typeParameters := children.find? fun child =>
          child.kind == .typeParameters
        parameters := parameters
        returnType := children.find? fun child => child.kind == .typeAscription
        body := body }
  | _ => none

def isAsync (kind : Kind) : Bool :=
  match kind with
  | .function form => form.isAsync
  | _ => false

/-- The sole parameter's name, if it may stand without parentheses. -/
def bareParameter? (style : Style) (parts : Parts) : Option String :=
  if style.arrowParensAlways || parts.typeParameters.isSome ||
      parts.returnType.isSome then none
  else
    match parts.parameters.children with
    | [.mk (.parameter false) _ children] =>
      match children.getLast? with
      | some (.mk (.binding name) _ []) => some name
      | _ => none
    | _ => none

/-- The value of a body that only returns it and holds no comment. -/
def returnedValue? (comments : List Span) (body : Node) : Option Node :=
  match body.children with
  | [.mk .returnStatement _ [value]] =>
    let hasComment := comments.any fun comment =>
      body.span.start < comment.start && comment.stop ≤ body.span.stop
    if hasComment then none else some value
  | _ => none

def needsParentheses (source : List Char) (value : Node) : Bool :=
  value.kind == .sequence ||
    (Text.slice source value.span.start value.span.stop).head? == some '{'

def bodyEdits (program : Program) (body : Node) : List Edit :=
  match returnedValue? program.comments body with
  | none => []
  | some value =>
    let isWrapped := needsParentheses program.source value
    [.replace ⟨body.span.start, value.span.start⟩ (if isWrapped then ['('] else []),
      .replace ⟨value.span.stop, body.span.stop⟩ (if isWrapped then [')'] else [])]

def conversion (program : Program) (style : Style) (kind : Kind) (span : Span)
    (slot : Slot) (parts : Parts) : List Edit :=
  let headEnd := (parts.typeParameters.getD parts.parameters).span.start
  let tailStart := (parts.returnType.getD parts.parameters).span.stop
  (if slot.isBare then [] else [.insert span.start ['(']]) ++
    [.replace ⟨span.start, headEnd⟩ (if isAsync kind then "async ".toList else [])] ++
    ((bareParameter? style parts).toList.map fun name =>
      .replace parts.parameters.span name.toList) ++
    [.replace ⟨tailStart, parts.body.span.start⟩ " => ".toList] ++
    bodyEdits program parts.body ++
    (if slot.isBare then [] else [.insert span.stop [')']])

/-- Why a function with these parts stays as it is. -/
def blocker? (slot : Slot) (survey : Context.Survey) : Option SkipReason :=
  if slot.isConstructed then some .constructor
  else if survey.hasThis then some .usesThis
  else if survey.hasContext then some .usesFunctionContext
  else none

def consider (program : Program) (style : Style) (node : Node) (slot : Slot) :
    Plan :=
  match parts? node.kind node.children with
  | none => .empty
  | some parts =>
    match blocker? slot node.survey with
    | some reason => .skip name node.span reason
    | none =>
      ⟨conversion program style node.kind node.span slot parts, []⟩

/-- The number of children before the value of a part with a key. -/
def valueIndex (children : List Node) : Nat :=
  (children.takeWhile fun child => child.kind == .decorator).length + 1

/-- The place of a child of a node that itself stands in a place. -/
def childSlot (kind : Kind) (children : List Node) (slot : Slot) (index : Nat) :
    Slot :=
  match kind with
  | .property .pair _ => ⟨index == 1, false⟩
  | .declarator => ⟨index == 1, false⟩
  | .assignment _ => ⟨index == 1, false⟩
  | .patternDefault => ⟨index == 1, false⟩
  | .call _ => ⟨index != 0, false⟩
  | .construction => ⟨index != 0, index == 0⟩
  | .array => ⟨true, false⟩
  | .returnStatement => ⟨true, false⟩
  | .arrow _ true => ⟨index + 1 == children.length, false⟩
  | .parenthesized => ⟨true, slot.isConstructed⟩
  | .conditional => ⟨index != 0, false⟩
  | .sequence => ⟨true, false⟩
  | .template => ⟨true, false⟩
  | .markupContainer => ⟨true, false⟩
  | .field _ _ => ⟨index == valueIndex children || index == valueIndex children + 1,
      false⟩
  | _ => .other

/-- What to do with a node and all nodes in it, by where it stands. -/
def planFrom (program : Program) (style : Style) : Node → Slot → Plan :=
  Node.fold fun kind span children slot =>
    let nodes := children.map (·.1)
    consider program style (.mk kind span nodes) slot ++
      Plan.concat (children.zipIdx.map fun (child, index) =>
        child.2 (childSlot kind nodes slot index))

end Codemod.Arrow

namespace Codemod.Transform

/-- Make arrow functions of function expressions. -/
def functionToArrow : Transform where
  name := Arrow.name
  description :=
    "Convert function expressions that do not depend on `this` into arrow functions"
  paths := []
  changesModule := true
  plan program options := Arrow.planFrom program options.style program.root .other

end Codemod.Transform
