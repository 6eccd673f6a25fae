import Codemod.Proofs.Scope.Patterns

/-!
# Identifiers that bind names

`Introduces` finds the patterns of the nodes that declare names, with what
declares them and how far it reaches.  It is a relation between the node and the
way to the pattern, so that two names that read the same are told apart; on the
way from a node to a name that it declares no other node declares names.
-/

namespace Codemod

namespace Kind

/-- Whether a node of this kind is a part of an import that binds a name. -/
def isImportPart : Kind → Bool
  | importSpecifier => true
  | importDefault => true
  | importNamespace => true
  | _ => false

/-- Whether a node of this kind declares names. -/
def declaresNames : Kind → Bool
  | variableList _ => true
  | parameters => true
  | catchParameter => true
  | importDeclaration _ _ => true
  | classDefinition _ => true
  | function _ => true
  | _ => false

end Kind

namespace Node

open Trace

variable {kind : Kind} {span place : Span} {children : List Node} {node pattern : Node}
  {name : String} {path : Place}

/-- Whether a node is the name of something that is declared. -/
def isBinding (node : Node) : Bool :=
  match node.kind with
  | .binding _ => true
  | _ => false

/--
A pattern whose names are declared, with what declares them and how far it reaches.
Without a reach the names are declared in the scope that the node opens itself.
-/
structure Introduction where
  reach : Option Reach
  kind : DeclarationKind
  pattern : Node

/-- A node declares the names of the pattern to which a way leads. -/
inductive Introduces : Node → Place → Introduction → Prop
  | declarator {keyword : VariableKeyword} {span place : Span} {declarators rest : List Node}
      {index : Nat} {pattern : Node}
      (isDeclarator : declarators[index]? = some (mk .declarator place (pattern :: rest))) :
      Introduces (mk (.variableList keyword) span declarators) [index, 0]
        ⟨some (if keyword = .var then .hoisted else .innermost), .variableName keyword, pattern⟩
  | parameter {isOptional : Bool} {span place : Span} {parameters decorators : List Node}
      {index : Nat} {pattern : Node} (isParameter : parameters[index]? =
        some (mk (.parameter isOptional) place (decorators ++ [pattern]))) :
      Introduces (mk .parameters span parameters) [index, decorators.length]
        ⟨some .innermost, .parameter, pattern⟩
  | restParameter {span place : Span} {parameters : List Node} {index : Nat} {pattern : Node}
      (isParameter : parameters[index]? = some (mk .rest place [pattern])) :
      Introduces (mk .parameters span parameters) [index, 0]
        ⟨some .innermost, .parameter, pattern⟩
  | catchParameter {span : Span} {patterns : List Node} {index : Nat} {pattern : Node}
      (isPattern : patterns[index]? = some pattern) :
      Introduces (mk .catchParameter span patterns) [index]
        ⟨some .innermost, .catchParameter, pattern⟩
  | imported {source : String} {isTyped : Bool} {span place : Span} {parts names : List Node}
      {index : Nat} {name : Node} {kind : Kind}
      (isPart : parts[index]? = some (mk kind place (names ++ [name])))
      (isImport : kind.isImportPart = true) (isName : name.isBinding = true) :
      Introduces (mk (.importDeclaration source isTyped) span parts) [index, names.length]
        ⟨some .innermost, .imported, name⟩
  | classDefinition {isDeclaration : Bool} {span : Span} {children : List Node} {index : Nat}
      {name : Node} (isFirst : children.findIdx? isBinding = some index)
      (isName : children[index]? = some name) :
      Introduces (mk (.classDefinition isDeclaration) span children) [index]
        ⟨some .innermost, .classDefinition, name⟩
  | function {form : FunctionForm} {span : Span} {children : List Node} {index : Nat}
      {name : Node} (declared : isDeclared form children = true)
      (isFirst : children.findIdx? isBinding = some index)
      (isName : children[index]? = some name) :
      Introduces (mk (.function form) span children) [index] ⟨some .both, .function, name⟩
  | functionName {form : FunctionForm} {span : Span} {children : List Node} {index : Nat}
      {name : Node} (kept : isDeclared form children = false)
      (isFirst : children.findIdx? isBinding = some index)
      (isName : children[index]? = some name) :
      Introduces (mk (.function form) span children) [index] ⟨none, .functionName, name⟩

/-! ## Listing what is declared -/

/-- The pattern of a declarator. -/
def declaratorPattern? : Node → Option Node
  | mk .declarator _ (pattern :: _) => some pattern
  | _ => none

/-- The name that a part of an import binds. -/
def importedBinding? (part : Node) : Option Node :=
  if part.kind.isImportPart then part.children.getLast?.filter isBinding else none

/-- The patterns whose names a node declares. -/
def introductions : Node → List Introduction
  | mk (.variableList keyword) _ children =>
    (children.filterMap declaratorPattern?).map
      (⟨some (if keyword = .var then .hoisted else .innermost), .variableName keyword, ·⟩)
  | mk .parameters _ children =>
    (children.filterMap parameterPattern?).map (⟨some .innermost, .parameter, ·⟩)
  | mk .catchParameter _ children => children.map (⟨some .innermost, .catchParameter, ·⟩)
  | mk (.importDeclaration _ _) _ children =>
    (children.filterMap importedBinding?).map (⟨some .innermost, .imported, ·⟩)
  | mk (.classDefinition _) _ children =>
    (children.find? isBinding).toList.map (⟨some .innermost, .classDefinition, ·⟩)
  | mk (.function form) _ children =>
    (children.find? isBinding).toList.map fun name =>
      if isDeclared form children then ⟨some .both, .function, name⟩
      else ⟨none, .functionName, name⟩
  | _ => []

/-- Some of the parts of a node are known by their numbers. -/
theorem enumerates_selected {select : Node → Option Node} (name : Node → Introduction)
    (way : Nat → Place) (injective : Function.Injective way)
    (only : ∀ path introduction, node.Introduces path introduction ↔ ∃ index child pattern,
      way index = path ∧ children[index]? = some child ∧ select child = some pattern ∧
        name pattern = introduction) :
    Enumerates node.Introduces ((children.filterMap select).map name) := by
  have all := (((Enumerates.positions children).filterMap select).map name).embed way
    fun _ _ _ _ _ _ same => injective same
  refine all.congr fun path introduction => ?_
  rw [only]
  constructor
  · rintro ⟨index, isWay, pattern, ⟨child, isChild, isSelected⟩, isName⟩
    exact ⟨index, child, pattern, isWay, isChild, isSelected, isName⟩
  · rintro ⟨index, child, pattern, isWay, isChild, isSelected, isName⟩
    exact ⟨index, isWay, pattern, ⟨child, isChild, isSelected⟩, isName⟩

/-- The first name among the parts of a node is known by its number. -/
theorem enumerates_given (name : Node → Introduction)
    (only : ∀ path introduction, node.Introduces path introduction ↔ ∃ index pattern,
      [index] = path ∧ children.findIdx? isBinding = some index ∧
        children[index]? = some pattern ∧ name pattern = introduction) :
    Enumerates node.Introduces ((children.find? isBinding).toList.map name) := by
  cases found : children.findIdx? isBinding with
  | none =>
    rw [List.find?_eq_none.2 (by simpa using List.findIdx?_eq_none_iff.1 found)]
    refine .nil fun path introduction introduces => ?_
    obtain ⟨index, _, _, isFirst, _⟩ := (only _ _).1 introduces
    rw [found] at isFirst
    cases isFirst
  | some index =>
    obtain ⟨inside, isName, isFirst⟩ := List.findIdx?_eq_some_iff_getElem.1 found
    have isFound : children.find? isBinding = some children[index] :=
      List.find?_eq_some_iff_getElem.2 ⟨isName, index, inside, rfl, by simpa using isFirst⟩
    rw [isFound]
    refine .singleton [index] fun path introduction => ?_
    rw [only]
    constructor
    · rintro ⟨other, pattern, rfl, isOther, isPattern, rfl⟩
      rw [found, Option.some.injEq] at isOther
      subst isOther
      rw [List.getElem?_eq_getElem inside, Option.some.injEq] at isPattern
      exact ⟨rfl, congrArg name isPattern.symm⟩
    · rintro ⟨rfl, rfl⟩
      exact ⟨index, _, rfl, found, List.getElem?_eq_getElem inside, rfl⟩

theorem parameterPattern?_eq_some_iff {parameter : Node} :
    parameterPattern? parameter = some pattern ↔ (∃ isOptional place decorators,
        parameter = mk (.parameter isOptional) place (decorators ++ [pattern])) ∨
      ∃ place, parameter = mk .rest place [pattern] := by
  unfold parameterPattern?
  split
  · rw [List.getLast?_eq_some_iff]
    constructor
    · rintro ⟨decorators, rfl⟩
      exact Or.inl ⟨_, _, decorators, rfl⟩
    · rintro (⟨_, _, decorators, same⟩ | ⟨_, same⟩)
      · cases same
        exact ⟨decorators, rfl⟩
      · cases same
  · constructor
    · rintro ⟨⟩
      exact Or.inr ⟨_, rfl⟩
    · rintro (⟨_, _, decorators, same⟩ | ⟨_, same⟩)
      · cases same
      · cases same
        rfl
  · next notParameter notRest =>
    constructor
    · rintro ⟨⟩
    · rintro (⟨isOptional, place, decorators, rfl⟩ | ⟨place, rfl⟩)
      · exact absurd rfl (notParameter _ _ _)
      · exact absurd rfl (notRest _ _)

theorem importedBinding?_eq_some_iff {part : Node} : importedBinding? part = some pattern ↔
      ∃ kind place names, part = mk kind place (names ++ [pattern]) ∧
        kind.isImportPart = true ∧ pattern.isBinding = true := by
  obtain ⟨kind, span, children⟩ := part
  cases isImport : kind.isImportPart with
  | false =>
    constructor
    · simp [importedBinding?, isImport]
    · rintro ⟨_, _, _, same, isPart, _⟩
      cases same
      rw [isImport] at isPart
      cases isPart
  | true =>
    simp only [importedBinding?, kind_mk, children_mk, isImport, if_true,
      Option.filter_eq_some_iff, List.getLast?_eq_some_iff]
    constructor
    · rintro ⟨⟨names, rfl⟩, isName⟩
      exact ⟨kind, span, names, rfl, isImport, isName⟩
    · rintro ⟨_, _, names, same, _, isName⟩
      cases same
      exact ⟨⟨names, rfl⟩, isName⟩

theorem declaratorPattern?_eq_some_iff {declarator : Node} :
    declaratorPattern? declarator = some pattern ↔
      ∃ place rest, declarator = mk .declarator place (pattern :: rest) := by
  unfold declaratorPattern?
  split
  · constructor
    · rintro ⟨⟩
      exact ⟨_, _, rfl⟩
    · rintro ⟨_, _, same⟩
      cases same
      rfl
  · next notDeclarator =>
    constructor
    · rintro ⟨⟩
    · rintro ⟨place, rest, rfl⟩
      exact absurd rfl (notDeclarator _ _ _)

/-- The number of the last part of a part. -/
def lastOf (children : List Node) (index : Nat) : Nat :=
  children[index]?.elim 0 fun child => child.children.length - 1

theorem enumerates_introductions (node : Node) : Enumerates node.Introduces node.introductions := by
  unfold introductions
  -- One case for each kind of node that declares names; the ways to the names differ.
  split
  case h_1 =>
    refine enumerates_selected _ (fun index => [index, 0]) (fun _ _ same => by simpa using same)
      fun path introduction => ?_
    simp only [declaratorPattern?_eq_some_iff]
    constructor
    · rintro ⟨isDeclarator⟩
      exact ⟨_, _, _, rfl, isDeclarator, ⟨_, _, rfl⟩, rfl⟩
    · rintro ⟨index, child, pattern, rfl, isChild, ⟨place, rest, rfl⟩, rfl⟩
      exact .declarator isChild
  case h_2 _ children =>
    refine enumerates_selected _ (fun index => [index, lastOf children index])
      (fun _ _ same => (List.cons.inj same).1) fun path introduction => ?_
    simp only [parameterPattern?_eq_some_iff]
    constructor
    · intro introduces
      cases introduces with
      | parameter isParameter =>
        exact ⟨_, _, _, by simp [lastOf, isParameter], isParameter, Or.inl ⟨_, _, _, rfl⟩, rfl⟩
      | restParameter isParameter =>
        exact ⟨_, _, _, by simp [lastOf, isParameter], isParameter, Or.inr ⟨_, rfl⟩, rfl⟩
    · rintro ⟨index, child, pattern, rfl, isChild, ⟨_, _, _, rfl⟩ | ⟨_, rfl⟩, rfl⟩
      · simpa [lastOf, isChild] using Introduces.parameter isChild
      · simpa [lastOf, isChild] using Introduces.restParameter isChild
  case h_3 _ children =>
    have selected : children.filterMap some = children := List.filterMap_some
    rw [← selected]
    refine enumerates_selected _ (fun index => [index]) (fun _ _ same => by simpa using same)
      fun path introduction => ?_
    rw [selected]
    constructor
    · intro introduces
      cases introduces with
      | catchParameter isPattern => exact ⟨_, _, _, rfl, isPattern, rfl, rfl⟩
    · rintro ⟨index, child, pattern, rfl, isChild, ⟨⟩, rfl⟩
      exact .catchParameter isChild
  case h_4 _ _ _ children =>
    refine enumerates_selected _ (fun index => [index, lastOf children index])
      (fun _ _ same => (List.cons.inj same).1) fun path introduction => ?_
    simp only [importedBinding?_eq_some_iff]
    constructor
    · intro introduces
      cases introduces with
      | imported isPart isImport isName =>
        exact ⟨_, _, _, by simp [lastOf, isPart], isPart, ⟨_, _, _, rfl, isImport, isName⟩, rfl⟩
    · rintro ⟨index, child, pattern, rfl, isChild, ⟨kind, place, names, rfl, isImport, isName⟩, rfl⟩
      simpa [lastOf, isChild] using Introduces.imported isChild isImport isName
  case h_5 =>
    refine enumerates_given _ fun path introduction => ?_
    constructor
    · intro introduces
      cases introduces with
      | classDefinition isFirst isName => exact ⟨_, _, rfl, isFirst, isName, rfl⟩
    · rintro ⟨index, pattern, rfl, isFirst, isName, rfl⟩
      exact .classDefinition isFirst isName
  case h_6 form _ children =>
    refine enumerates_given _ fun path introduction => ?_
    constructor
    · intro introduces
      cases introduces with
      | function declared isFirst isName =>
        exact ⟨_, _, rfl, isFirst, isName, if_pos declared⟩
      | functionName kept isFirst isName =>
        exact ⟨_, _, rfl, isFirst, isName, if_neg (by simp [kept])⟩
    · rintro ⟨index, pattern, rfl, isFirst, isName, rfl⟩
      split
      · next declared => exact .function declared isFirst isName
      · next kept => exact .functionName (Bool.eq_false_iff.2 kept) isFirst isName
  case h_7 notVariables notParameters notCatch notImport notClass notFunction =>
    refine .nil fun path introduction introduces => ?_
    cases introduces with
    | declarator => exact notVariables _ _ _ rfl
    | parameter => exact notParameters _ _ rfl
    | restParameter => exact notParameters _ _ rfl
    | catchParameter => exact notCatch _ _ rfl
    | imported => exact notImport _ _ _ _ rfl
    | classDefinition => exact notClass _ _ _ rfl
    | function => exact notFunction _ _ _ rfl
    | functionName => exact notFunction _ _ _ rfl

/-! ## Ways to names -/

variable {introduction : Introduction}

/-- The pattern stands where the way leads. -/
theorem Introduces.at?_eq (introduces : node.Introduces path introduction) :
    node.at? path = some introduction.pattern := by
  have ofPart {index number : Nat} {child pattern : Node}
      (isChild : node.children[index]? = some child)
      (isPattern : child.children[number]? = some pattern) :
      node.at? [index, number] = some pattern :=
    at?_of_getElem? isChild (at?_of_getElem? isPattern (at?_nil _))
  cases introduces with
  | declarator isDeclarator => exact ofPart isDeclarator rfl
  | parameter isParameter => exact ofPart isParameter (by simp)
  | restParameter isParameter => exact ofPart isParameter rfl
  | catchParameter isPattern => exact at?_of_getElem? isPattern (at?_nil _)
  | imported isPart => exact ofPart isPart (by simp)
  | classDefinition _ isName => exact at?_of_getElem? isName (at?_nil _)
  | function _ _ isName => exact at?_of_getElem? isName (at?_nil _)
  | functionName _ _ isName => exact at?_of_getElem? isName (at?_nil _)

/-- The patterns of a node are at the same depth. -/
theorem Introduces.length_eq {other : Place} {another : Introduction}
    (introduces : node.Introduces path introduction)
    (introducesOther : node.Introduces other another) : path.length = other.length := by
  cases introduces <;> cases introducesOther <;> rfl

theorem Introduces.declaresNames (introduces : node.Introduces path introduction) :
    node.kind.declaresNames = true := by
  cases introduces <;> rfl

theorem BoundAt.declaresNames_eq (isBound : pattern.BoundAt name place path) :
    pattern.kind.declaresNames = false := by
  cases isBound <;> rfl

theorem Introduces.length_le (introduces : node.Introduces path introduction) :
    path.length ≤ 2 := by
  cases introduces <;> simp

/-- Between a node and a pattern whose names it declares nothing else declares names. -/
theorem Introduces.declaresNames_between {before after : Place} {inner : Node}
    (introduces : node.Introduces (before ++ after) introduction)
    (reached : node.at? before = some inner) (notHere : before ≠ []) (notThere : after ≠ []) :
    inner.kind.declaresNames = false := by
  have isFirst : before.length = 1 := by
    have short := introduces.length_le
    rw [List.length_append] at short
    have beforeSome := List.length_pos_iff.2 notHere
    have afterSome := List.length_pos_iff.2 notThere
    omega
  obtain ⟨index, rfl⟩ := List.length_eq_one_iff.1 isFirst
  have ofPart {child : Node} (isChild : node.children[index]? = some child)
      (isPlain : child.kind.declaresNames = false) : inner.kind.declaresNames = false := by
    rw [at?_of_getElem? isChild (at?_nil child), Option.some.injEq] at reached
    exact reached ▸ isPlain
  generalize isPath : [index] ++ after = path at introduces
  cases introduces with
  | declarator isDeclarator =>
    cases isPath
    exact ofPart isDeclarator rfl
  | parameter isParameter =>
    cases isPath
    exact ofPart isParameter rfl
  | restParameter isParameter =>
    cases isPath
    exact ofPart isParameter rfl
  | @imported _ _ _ _ _ _ _ _ kind isPart isImport isName =>
    cases isPath
    refine ofPart isPart ?_
    cases kind <;> first | rfl | cases isImport
  | _ =>
    cases isPath
    exact absurd rfl notThere

end Node

end Codemod
