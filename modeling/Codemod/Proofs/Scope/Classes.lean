import Codemod.Proofs.Scope.Coverage
import Codemod.Proofs.Scope.Enclosure

/-!
# Which scopes are those of classes

Each class has one scope, which holds its parent and its body.  Which scopes of a
table are scopes of classes, and which classes have lost theirs to a part before
it, follows from the outlines of the scopes.
-/

namespace Codemod

open Trace ScopeTable

/-! ## Which classes lose their scopes -/

namespace Node

variable {root node : Node} {place : Place}

/-- A block that takes the scope of a class that waits disturbs the class. -/
theorem disturbsClass_of_block {part : Node} {rest : Place} (reached : part.at? rest = some node)
    (isForm : node.kind.scopeForm?.isSome = true) (isBlock : node.kind.holdsVariables = false)
    (noScopes : part.scopesAt rest = []) : part.disturbsClass = true := by
  rw [disturbsClass, List.any_eq_true]
  refine ⟨rest, mem_openings.2 ⟨node, reached, isForm⟩, ?_⟩
  rw [reached, Option.any_some, isBlock, noScopes]
  simp

/-- If no class is disturbed before its scope, only classes have scopes of classes. -/
theorem isClass_of_takesClass (reached : root.at? place = some node)
    (isForm : node.kind.scopeForm?.isSome = true)
    (undisturbed : ∀ outer owner, root.at? outer = some owner → owner.kind.isClass = true →
      owner.head.any disturbsClass = false)
    (takes : root.takesClass place = true) : node.kind.isClass = true := by
  rw [takesClass, reached, Option.any_some, Bool.and_eq_true, Bool.and_eq_true, Bool.not_eq_true',
    Bool.or_eq_true] at takes
  obtain ⟨⟨isBlock, isClass | waits⟩, _⟩ := takes
  · exact isClass
  · rcases exists_class_of_waitsFrom waits with ⟨isFalse, _⟩ | isBelow
    · cases isFalse
    · obtain ⟨outer, index, rest, owner, part, rfl, isOwner, isClass, isPart, _, isHead,
        noScopes⟩ := isBelow
      rw [List.append_cons, at?_append, at?_part isOwner isPart, Option.bind_some] at reached
      have quiet := undisturbed outer owner isOwner isClass
      rw [List.any_eq_false] at quiet
      exact absurd (disturbsClass_of_block reached isForm isBlock noScopes) (quiet part isHead)

/-- A part of a class that is neither a decorator nor the name before it stands in its scope. -/
theorem holdsInScope_of_part {part : Node} {index : Nat} (isClass : node.kind.isClass = true)
    (isPart : node.children[index]? = some part) (isBody : part.kind.precedesScope = false) :
    node.holdsInScope index = true := by
  obtain ⟨kind, span, children⟩ := node
  cases kind with
  | classDefinition isDeclaration =>
    have isForm : (mk (.classDefinition isDeclaration) span children).kind.scopeForm? =
        some .afterHead := rfl
    refine (holdsInScope_of_some isForm).2 ⟨?_, (List.getElem?_eq_some_iff.1 isPart).1⟩
    by_contra notAfter
    have isBefore : index < (children.takeWhile fun child => child.kind.precedesScope).length :=
      Nat.lt_of_not_le notAfter
    have split := List.takeWhile_append_dropWhile (l := children)
      (p := fun child => child.kind.precedesScope)
    rw [children_mk, ← split, List.getElem?_append_left isBefore] at isPart
    have precedes := List.all_eq_true.1 List.all_takeWhile part (List.mem_of_getElem? isPart)
    rw [isBody] at precedes
    cases precedes
  | _ => cases isClass

end Node

/-! ## Whole trees -/

namespace ScopeTable

variable {root node : Node} {place : Place} {id : ScopeId} {scope : Scope}

theorem openedKind_ne_class (opening : Opening) : Survey.openedKind opening ≠ .classDefinition := by
  cases opening with
  | function isArrow name shape => cases isArrow <;> simp [Survey.openedKind]
  | _ => simp [Survey.openedKind]

/-- A scope of a table is that of a class exactly if a class waits for it. -/
theorem kind_eq_class_iff (isText : root.kind = .program) (shaped : root.isWellShaped = true)
    (isPlace : root.openings[id]? = some place) (found : (ofProgram root).get? id = some scope) :
    scope.kind = .classDefinition ↔ root.takesClass place = true := by
  obtain ⟨node, reached, isForm⟩ := Node.mem_openings.1 (List.mem_of_getElem? isPlace)
  obtain ⟨form, isForm⟩ := Option.isSome_iff_exists.1 isForm
  obtain ⟨kind, span, children⟩ := node
  obtain ⟨opening, _, layout⟩ := Node.exists_layout isForm span children .read
  have isKind : scope.kind = _ :=
    (outlineAt_ofProgram isText shaped isPlace found).kind reached layout.isOpening
  rw [isKind]
  cases root.takesClass place with
  | true => simp
  | false => simpa using openedKind_ne_class opening

/--
All that stands at a place or below it belongs to a scope: the scopes that open
there lie in it, and the references, the member chains and the calls of `super`
there are recorded in it or in a scope that lies in it.
-/
structure HoldsBelow (root : Node) (id : ScopeId) (place : Place) : Prop where
  scopes : ∀ other below, root.openings[other]? = some below → place <+: below →
    (ofProgram root).isWithin other id = true
  uses : ∀ below number reach note, root.notesAt below number reach note →
    note.declared? = none → place <+: below →
    ∃ other, note ∈ (ofProgram root).usesOf other ∧ (ofProgram root).isWithin other id = true

theorem mem_usesOf_of_mem_notesOf {table : ScopeTable} {note : Note}
    (isNoted : note ∈ table.notesOf id) (isUse : note.declared? = none) :
    note ∈ table.usesOf id := by
  rcases List.mem_append.1 isNoted with isDeclared | isUsed
  · obtain ⟨entry, _, rfl⟩ := List.mem_map.1 isDeclared
    cases isUse
  · exact isUsed

/-- What stands in the scope of a node belongs to the scope. -/
theorem holdsBelow_of_holdsInScope {child : Node} {index : Nat} (isText : root.kind = .program)
    (shaped : root.isWellShaped = true) (isPlace : root.openings[id]? = some place)
    (reached : root.at? place = some node) (isChild : node.children[index]? = some child)
    (holds : node.holdsInScope index = true) : HoldsBelow root id (place ++ [index]) := by
  constructor
  · intro other below isOther isBelow
    rw [isWithin_iff_place shaped isOther isPlace]
    exact List.mem_cons_of_mem _ (Node.mem_scopesAt_of_holdsInScope reached isChild holds isBelow)
  · intro below number reach note isNoted isUse isBelow
    have isOpen := Node.mem_scopesAt_of_holdsInScope reached isChild holds isBelow
    obtain ⟨inner, isInner⟩ : ∃ inner, root.innermost? below = some inner := by
      rw [Node.innermost?, ← Option.isSome_iff_exists, List.isSome_head?]
      exact List.ne_nil_of_mem isOpen
    obtain ⟨other, isOther⟩ := List.getElem?_of_mem
      (Node.mem_openings_of_mem_scopesAt (List.mem_of_head? isInner))
    obtain ⟨user, isUser, isEntry⟩ := isNoted
    have isReach := (Node.use_of_mem_ofNode (List.mem_of_getElem? isEntry) isUse).1
    have lands : root.lands below reach inner = true := by
      rw [isReach]
      exact beq_iff_eq.2 isInner
    have listed := View.enumerates_ofProgram root.isKnown_notes isText shaped isOther
    have isListed : note ∈ (ofProgram root).notesOf other :=
      listed.mem_iff.2 ⟨(below, number), reach, ⟨user, isUser, isEntry⟩, lands⟩
    refine ⟨other, mem_usesOf_of_mem_notesOf isListed isUse, ?_⟩
    rw [isWithin_iff_place shaped isOther isPlace, ← Node.scopesAt_of_innermost? isInner]
    exact isOpen

/-- A scope of a class is the one whose `this` it sees. -/
theorem thisScope_of_class (found : (ofProgram root).get? id = some scope)
    (isClass : scope.kind = .classDefinition) : (ofProgram root).thisScope id = id := by
  obtain ⟨around, way⟩ := (wellFormed_ofProgram root).ancestors_head (lt_length_of_get? found)
  rw [thisScope, way, List.find?_cons, found, Option.any_some, isClass]
  rfl

/--
In the table of a program each class has exactly one scope, which holds all that
stands in its parent and in its body, whatever scopes open there.  This scope is
of the kind of classes, has the span of the class and rebinds `this`, unless a
decorator of the class holds another class or opens a block where the class waits
for its scope: then it is a plain block.  No other scope is of that kind, but for
a block in a decorator that is taken for the scope of the class that waits; if no
class is disturbed in this way, the scopes of that kind are exactly those of
classes.
-/
theorem class_scopes_are_of_undisturbed_classes {root : Node} (isText : root.kind = .program)
    (shaped : root.isWellShaped = true) :
    (∀ place node, root.at? place = some node → node.kind.isClass = true →
      ∃ id scope, (∀ other, root.openings[other]? = some place ↔ other = id) ∧
        (ofProgram root).get? id = some scope ∧
        scope.kind = (if node.head.any Node.disturbsClass then .block else .classDefinition) ∧
        (scope.kind = .classDefinition →
          scope.span = node.span ∧ (ofProgram root).thisScope id = id) ∧
        ∀ index part, node.children[index]? = some part → part.kind.precedesScope = false →
          HoldsBelow root id (place ++ [index])) ∧
    (∀ id place scope, root.openings[id]? = some place → (ofProgram root).get? id = some scope →
      (scope.kind = .classDefinition ↔ root.takesClass place = true)) ∧
    ((∀ place node, root.at? place = some node → node.kind.isClass = true →
        node.head.any Node.disturbsClass = false) →
      ∀ id place node scope, root.openings[id]? = some place → root.at? place = some node →
        (ofProgram root).get? id = some scope →
        (scope.kind = .classDefinition ↔ node.kind.isClass = true)) := by
  refine ⟨?_, fun id place scope => kind_eq_class_iff isText shaped, ?_⟩
  · intro place node reached isClass
    have isOpening : node.opening? = some .block := by
      obtain ⟨kind, span, children⟩ := node
      cases kind with
      | classDefinition isDeclaration => rfl
      | _ => cases isClass
    have isForm : node.kind.scopeForm?.isSome = true := by
      rw [← Option.ne_none_iff_isSome]
      intro noForm
      rw [Node.opening?_eq_none noForm] at isOpening
      cases isOpening
    obtain ⟨id, isPlace⟩ := List.getElem?_of_mem (Node.mem_openings.2 ⟨node, reached, isForm⟩)
    obtain ⟨scope, found, _⟩ := exists_isAt shaped isPlace
    have outline := outlineAt_ofProgram isText shaped isPlace found
    have takes := Node.takesClass_of_isClass reached isClass
    refine ⟨id, scope, fun other => ⟨fun isOther => ?_, fun isSame => isSame ▸ isPlace⟩, found, ?_,
      fun isKind => ⟨?_, thisScope_of_class found isKind⟩, fun index part isPart isBody => ?_⟩
    · exact Survey.eq_of_getElem?_openings isOther isPlace
    · have isKind : scope.kind = _ := outline.kind reached isOpening
      rw [isKind, takes]
      cases node.head.any Node.disturbsClass <;> rfl
    · refine outline.own reached ?_
      rw [Node.opensAtOnce_of_isClass reached isClass]
      exact (kind_eq_class_iff isText shaped isPlace found).1 isKind
    · exact holdsBelow_of_holdsInScope isText shaped isPlace reached isPart
        (Node.holdsInScope_of_part isClass isPart isBody)
  · intro undisturbed id place node scope isPlace reached found
    rw [kind_eq_class_iff isText shaped isPlace found]
    constructor
    · obtain ⟨other, isOther, isForm⟩ := Node.mem_openings.1 (List.mem_of_getElem? isPlace)
      rw [reached, Option.some.injEq] at isOther
      subst isOther
      exact Node.isClass_of_takesClass reached isForm undisturbed
    · intro isClass
      rw [Node.takesClass_of_isClass reached isClass, undisturbed place node reached isClass]
      rfl

/-- `@d class C{x=class{y=this.a}}` -/
def nestedClasses : Node :=
  .mk .program ⟨0, 29⟩ [
    .mk (.classDefinition true) ⟨0, 29⟩ [
      .mk .decorator ⟨0, 2⟩ [.mk (.reference "d") ⟨1, 2⟩ []],
      .mk (.binding "C") ⟨9, 10⟩ [],
      .mk .classBody ⟨10, 29⟩ [
        .mk (.field false false) ⟨11, 28⟩ [
          .mk (.name "x") ⟨11, 12⟩ [],
          .mk (.classDefinition false) ⟨13, 28⟩ [
            .mk .classBody ⟨18, 28⟩ [
              .mk (.field false false) ⟨19, 27⟩ [
                .mk (.name "y") ⟨19, 20⟩ [],
                .mk (.member "a" false) ⟨21, 27⟩ [
                  .mk .thisExpression ⟨21, 25⟩ [],
                  .mk (.name "a") ⟨26, 27⟩ []]]]]]]]]

theorem class_scopes_are_of_undisturbed_classes_of_nestedClasses :
    nestedClasses.kind = .program ∧ nestedClasses.isWellShaped = true ∧
    ∃ id scope, (∀ other, nestedClasses.openings[other]? = some [0] ↔ other = id) ∧
      (ofProgram nestedClasses).get? id = some scope ∧ scope.kind = .classDefinition ∧
      scope.span = ⟨0, 29⟩ ∧ (ofProgram nestedClasses).thisScope id = id ∧
      HoldsBelow nestedClasses id [0, 2] := by
  have shaped : nestedClasses.isWellShaped = true := by decide
  obtain ⟨id, scope, isOnly, found, isKind, isClass, holds⟩ :=
    (class_scopes_are_of_undisturbed_classes rfl shaped).1 [0] _ rfl rfl
  have ofClass : scope.kind = .classDefinition := by
    rw [isKind]
    decide
  obtain ⟨isSpan, isThis⟩ := isClass ofClass
  exact ⟨rfl, shaped, id, scope, isOnly, found, ofClass, isSpan, isThis, holds 2 _ rfl rfl⟩

/-- `@(class {}) class C { x = this.props.a; }` -/
def classUnderClass : Node :=
  .mk .program ⟨0, 41⟩ [
    .mk (.classDefinition true) ⟨0, 41⟩ [
      .mk .decorator ⟨0, 11⟩ [
        .mk .parenthesized ⟨1, 11⟩ [
          .mk (.classDefinition false) ⟨2, 10⟩ [.mk .classBody ⟨8, 10⟩ []]]],
      .mk (.binding "C") ⟨18, 19⟩ [],
      .mk .classBody ⟨20, 41⟩ [
        .mk (.field false false) ⟨22, 39⟩ [
          .mk (.name "x") ⟨22, 23⟩ [],
          .mk (.member "a" false) ⟨26, 38⟩ [
            .mk (.member "props" false) ⟨26, 36⟩ [
              .mk .thisExpression ⟨26, 30⟩ [],
              .mk (.name "props") ⟨31, 36⟩ []],
            .mk (.name "a") ⟨37, 38⟩ []]]]]]

/-- A class whose decorator holds a class has a plain block, which sees `this` of the text. -/
theorem class_scope_is_lost_to_decorator :
    classUnderClass.kind = .program ∧ classUnderClass.isWellShaped = true ∧
    classUnderClass.openings = [[], [0, 0, 0, 0], [0]] ∧
    ((classUnderClass.at? [0]).any fun node => node.kind.isClass) = true ∧
    ∃ scope, (ofProgram classUnderClass).get? 2 = some scope ∧ scope.kind = .block ∧
      scope.span = ⟨18, 19⟩ ∧
      ((ofProgram classUnderClass).members.map fun member => member.scope) = [2, 2] ∧
      (ofProgram classUnderClass).thisScope 2 = 0 :=
  ⟨rfl, by decide, by decide, by decide, _, rfl, rfl, rfl, by decide, by decide⟩

end ScopeTable

end Codemod
