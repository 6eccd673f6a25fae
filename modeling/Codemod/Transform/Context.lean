import Codemod.Tree.Node

/-!
# Function context

How a part of a program depends on the function around it: uses of `this`, of
the arguments, of the parent and of the construction target.  The same survey
notes whether the part holds markup, and the literals whose text must not be
touched.
-/

namespace Codemod

/-- What a survey of a part of a program finds. -/
structure Context.Survey where
  /-- `this` outside nested functions and classes. -/
  hasOwnThis : Bool
  /-- `this` anywhere. -/
  hasThis : Bool
  /-- Other uses of the function outside nested functions and classes. -/
  hasOwnContext : Bool
  /-- Other uses of the function anywhere. -/
  hasContext : Bool
  hasMarkup : Bool
  /-- The properties of object literals that are only a name. -/
  shorthands : List Span
  /-- The string and template literals. -/
  literals : List Span
  deriving DecidableEq, Repr

namespace Context.Survey

def empty : Survey :=
  ⟨false, false, false, false, false, [], []⟩

def append (first second : Survey) : Survey where
  hasOwnThis := first.hasOwnThis || second.hasOwnThis
  hasThis := first.hasThis || second.hasThis
  hasOwnContext := first.hasOwnContext || second.hasOwnContext
  hasContext := first.hasContext || second.hasContext
  hasMarkup := first.hasMarkup || second.hasMarkup
  shorthands := first.shorthands ++ second.shorthands
  literals := first.literals ++ second.literals

instance : Append Survey := ⟨append⟩

def concat (surveys : List Survey) : Survey :=
  surveys.foldr append empty

/-- A survey seen from outside a function or a class. -/
def nested (survey : Survey) : Survey :=
  { survey with hasOwnThis := false, hasOwnContext := false }

def thisUse : Survey :=
  { empty with hasOwnThis := true, hasThis := true }

/-- A use of something else that belongs to the function. -/
def contextUse : Survey :=
  { empty with hasOwnContext := true, hasContext := true }

/-- Whether an offset lies strictly inside a literal. -/
def isLiteral (survey : Survey) (offset : Nat) : Bool :=
  survey.literals.any fun span => span.start < offset && offset < span.stop

end Context.Survey

namespace Context

/-- The parts of a class that count: its parent and, as nested, its body. -/
def classParts (children : List (Node × Survey)) : List Survey :=
  children.filterMap fun child =>
    match child.1.kind with
    | .heritage => some child.2
    | .classBody => some child.2.nested
    | _ => none

/-- Put the surveys of the parts of a node together. -/
def assemble (kind : Kind) (span : Span) (children : List (Node × Survey)) :
    Survey :=
  let inner := Survey.concat (children.map (·.2))
  match kind with
  | .thisExpression => .thisUse
  | .superExpression => .contextUse
  | .metaProperty "new" "target" => .contextUse
  | .metaProperty _ _ => .empty
  | .reference "arguments" => .contextUse
  | .function _ => inner.nested
  | .classDefinition _ => Survey.concat (classParts children)
  | .heritage => Survey.concat ((children.take 1).map (·.2))
  | .markupElement => { inner with hasMarkup := true }
  | .markupFragment => { inner with hasMarkup := true }
  | .property .shorthand _ => { inner with shorthands := span :: inner.shorthands }
  | .stringLiteral _ => { inner with literals := span :: inner.literals }
  | .template => { inner with literals := span :: inner.literals }
  | _ => inner

end Context

def Node.survey : Node → Context.Survey :=
  fold Context.assemble

end Codemod
