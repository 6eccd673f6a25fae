import Codemod.Proofs.Scope.Landing
import Codemod.Proofs.Scope.Outlines

/-!
# What the spans of scopes cover

Whatever is noted in a scope stands in the node that opens the scope
(`covers_node`).  A scope that opens at once has the span of its node, so this
span covers the scopes in it and all that is noted in it.  A scope that opens
after other nodes were entered has the span of the last of them: the scope of a
`switch` over a member of an object has the span of the name of the member.
-/

namespace Codemod

open Trace ScopeTable

namespace Node

variable {root node : Node} {place scope : Place} {reach : Option Reach} {note : Note}

/-- What reaches out from a place lands in a scope that is open there. -/
theorem mem_scopesAt_of_lands {reach : Reach} (lands : root.lands place (some reach) scope = true) :
    scope ∈ root.scopesAt place := by
  have here : root.innermost? place = some scope → scope ∈ root.scopesAt place := List.mem_of_head?
  have hoisted : root.holder? place = some scope → scope ∈ root.scopesAt place :=
    List.mem_of_find?_eq_some
  cases reach with
  | innermost => exact here (beq_iff_eq.1 lands)
  | hoisted => exact hoisted (beq_iff_eq.1 lands)
  | both =>
    rcases Bool.or_eq_true_iff.1 lands with isHere | isHoisted
    · exact here (beq_iff_eq.1 isHere)
    · exact hoisted (beq_iff_eq.1 isHoisted)

/-- What is noted in a scope is noted by nodes that stand in the node of the scope. -/
theorem isPrefix_of_lands (lands : root.lands place reach scope = true) : scope <+: place := by
  cases reach with
  | none =>
    rw [beq_iff_eq.1 lands]
  | some reach =>
    exact isPrefix_of_mem_scopesAt (mem_scopesAt_of_lands lands)

/-- A use is noted in the innermost scope and has the span of the node that notes it. -/
theorem use_of_mem_ofNode {access : Access}
    (member : (reach, note) ∈ View.notes.ofNode node access) (isUse : note.declared? = none) :
    reach = some .innermost ∧ note.span = node.span := by
  rcases List.mem_append.1 member with isNoted | isBorn
  · obtain ⟨entry, isGiven, same⟩ := List.mem_map.1 isNoted
    cases same
    obtain ⟨step, isStep, isEntry⟩ := List.mem_flatMap.1 isGiven
    cases isNotedBy_notes node access step isStep with
    | declare =>
      rw [List.mem_singleton.1 isEntry] at isUse
      cases isUse
    | expectClass isClass => cases isEntry
    | _ =>
      rw [List.mem_singleton.1 isEntry]
      exact ⟨rfl, rfl⟩
  · obtain ⟨value, isGiven, same⟩ := List.mem_map.1 isBorn
    cases same
    obtain ⟨opening, _, isNote⟩ := List.mem_flatMap.1 isGiven
    obtain ⟨entry, _, rfl⟩ := List.mem_map.1 isNote
    cases isUse

theorem ofNode_notes_eq (node : Node) (access : Access) :
    View.notes.ofNode node access = View.notes.ofNode node .read := by
  have same : (node.notes access).flatMap Step.given = (node.notes .read).flatMap Step.given := by
    unfold notes
    split
    case h_2 => cases chain? _ <;> rfl
    all_goals rfl
  exact congrArg (fun given => given.map (fun entry => (some entry.1, entry.2)) ++ _) same

/-- What the node at a place notes, by its number among all that the node notes. -/
def notesAt (root : Node) (place : Place) (index : Nat) (reach : Option Reach) (note : Note) :
    Prop :=
  ∃ node, root.at? place = some node ∧ (View.notes.ofNode node .read)[index]? = some (reach, note)

theorem isKnown_notes (root : Node) : View.notes.IsKnown root root.notesAt where
  isNode := fun ⟨node, reached, _⟩ => ⟨node, reached⟩
  enumerates := by
    intro place node reached
    rw [ofNode_notes_eq]
    refine (Enumerates.positions _).congr fun index entry => ?_
    constructor
    · intro isEntry
      exact ⟨node, reached, isEntry⟩
    · rintro ⟨other, isOther, isEntry⟩
      rw [reached, Option.some.injEq] at isOther
      exact isOther ▸ isEntry

/-- What is declared in a scope lies in the node that opens the scope. -/
theorem DeclaredIn.holdsSpan {identifier : Place} {declared : Declared}
    (isDeclared : root.DeclaredIn scope identifier declared) (nested : root.isNested = true) :
    root.HoldsSpan scope declared.span := by
  obtain ⟨construct, reach, declares, lands⟩ := isDeclared
  obtain ⟨types, reached⟩ := declares.at?_identifier
  have holds : root.HoldsSpan identifier declared.span := ⟨_, reached, Span.contains_refl _⟩
  have isBelow : construct <+: identifier := by
    cases declares with
    | intro _ _ _ isIdentifier => exact ⟨_, isIdentifier⟩
  exact holds.outwards nested ((isPrefix_of_lands lands).trans isBelow)

end Node

namespace ScopeTable

variable {root node : Node} {place : Place} {id : ScopeId} {note : Note}

/-- What is noted in a scope lies in the node that opens the scope. -/
theorem holdsSpan_of_mem_notesOf (isText : root.kind = .program)
    (shaped : root.isWellShaped = true) (nested : root.isNested = true)
    (isPlace : root.openings[id]? = some place) (isNoted : note ∈ (ofProgram root).notesOf id) :
    root.HoldsSpan place note.span := by
  cases isDeclared : note.declared? with
  | none =>
    have noted := View.enumerates_ofProgram root.isKnown_notes isText shaped isPlace
    obtain ⟨⟨inner, index⟩, reach, ⟨node, reached, isEntry⟩, lands⟩ := noted.mem_iff.1 isNoted
    have isSpan := (Node.use_of_mem_ofNode (List.mem_of_getElem? isEntry) isDeclared).2
    have holds : root.HoldsSpan inner note.span := ⟨node, reached, isSpan ▸ Span.contains_refl _⟩
    exact holds.outwards nested (Node.isPrefix_of_lands lands)
  | some declared =>
    cases note with
    | declaration name site =>
      have isListed : (name, site) ∈ View.sited.read (ofProgram root) id :=
        List.mem_filterMap.2 ⟨_, isNoted, rfl⟩
      have noted := View.enumerates_ofProgram (Node.isKnown_sited shaped) isText shaped isPlace
      obtain ⟨ways, reach, isSited, lands⟩ := noted.mem_iff.1 isListed
      have isSited := sitedIn_iff.2 ⟨ways, rfl, reach, isSited, lands⟩
      exact isSited.declaredIn.holdsSpan nested
    | _ => cases isDeclared

/-- A span covers all that is noted in a scope of a table. -/
structure Covers (table : ScopeTable) (id : ScopeId) (span : Span) : Prop where
  declarations : ∀ scope, table.get? id = some scope →
    ∀ entry ∈ scope.declarations, span.contains entry.2.span = true
  references : ∀ reference ∈ table.references, reference.scope = id →
    span.contains reference.span = true
  members : ∀ member ∈ table.members, member.scope = id → span.contains member.span = true
  superCalls : ∀ call ∈ table.superCalls, call.scope = id → span.contains call.span = true

theorem covers_of_notesOf {table : ScopeTable} {span : Span}
    (each : ∀ note ∈ table.notesOf id, span.contains note.span = true) : table.Covers id span := by
  have eachUse : ∀ note ∈ table.usesOf id, span.contains note.span = true :=
    fun note isUse => each note (List.mem_append_right _ isUse)
  constructor
  · intro scope found entry isEntry
    refine each (.declaration entry.1 entry.2)
      (List.mem_append_left _ (List.mem_map.2 ⟨entry, ?_, rfl⟩))
    rwa [declarationsOf_eq found]
  · intro reference isReference isHere
    refine eachUse (.reference reference.name reference.span)
      (List.mem_append_left _ (List.mem_append_left _ (List.mem_map.2 ⟨reference, ?_, rfl⟩)))
    exact List.mem_filter.2 ⟨isReference, beq_iff_eq.2 isHere⟩
  · intro member isMember isHere
    refine eachUse (.member member.chain member.span)
      (List.mem_append_left _ (List.mem_append_right _ (List.mem_map.2 ⟨member, ?_, rfl⟩)))
    exact List.mem_filter.2 ⟨isMember, beq_iff_eq.2 isHere⟩
  · intro call isCall isHere
    refine eachUse (.superCall call.span) (List.mem_append_right _ (List.mem_map.2 ⟨call, ?_, rfl⟩))
    exact List.mem_filter.2 ⟨isCall, beq_iff_eq.2 isHere⟩

section

variable (isText : root.kind = .program) (shaped : root.isWellShaped = true)
    (nested : root.isNested = true) (isPlace : root.openings[id]? = some place)
include isText shaped nested isPlace

/-- The node that opens a scope covers all that is noted in the scope. -/
theorem covers_node (reached : root.at? place = some node) :
    (ofProgram root).Covers id node.span := by
  refine covers_of_notesOf fun note isNoted => ?_
  obtain ⟨other, isOther, inside⟩ := holdsSpan_of_mem_notesOf isText shaped nested isPlace isNoted
  rw [reached, Option.some.injEq] at isOther
  exact isOther ▸ inside

/-- The scopes in a scope that opens at once lie in its node. -/
theorem holdsSpan_child (atOnce : root.opensAtOnce place = true) {child : Scope}
    (isChild : child ∈ (ofProgram root).scopes) (isParent : child.parent = some id) :
    root.HoldsSpan place child.span := by
  obtain ⟨number, found⟩ := List.getElem?_of_mem isChild
  have isNumber : number < root.openings.length := by
    rw [← length_scopes_ofProgram shaped]
    exact (List.getElem?_eq_some_iff.1 found).1
  have isInner := List.getElem?_eq_getElem isNumber
  obtain ⟨other, isOther, isAt⟩ := exists_isAt shaped isInner
  obtain rfl : child = other := Option.some.inj (found.symm.trans isOther)
  have isOuter := isAt.parent
  rw [isParent, Option.bind_some, isPlace] at isOuter
  exact (outlineAt_ofProgram isText shaped isInner found).inside nested place isOuter.symm atOnce

end

/--
In the table of a program, all that is noted in a scope lies in the node that
opens the scope: the names that the scope declares, and the references, the
member chains and the calls of `super` that are recorded with it.  The span of
the scope is the span of the node if the scope opens at once, and then the scopes
in it lie in this span as well.
-/
theorem spans_cover_their_scopes {root : Node} (isText : root.kind = .program)
    (shaped : root.isWellShaped = true) (nested : root.isNested = true) {id : ScopeId}
    {place : Place} (isPlace : root.openings[id]? = some place) :
    ∃ scope node, (ofProgram root).get? id = some scope ∧ root.at? place = some node ∧
      (ofProgram root).Covers id node.span ∧
      (root.opensAtOnce place = true →
        scope.span = node.span ∧
        ∀ child ∈ (ofProgram root).scopes, child.parent = some id →
          scope.span.contains child.span = true) := by
  obtain ⟨scope, found, _⟩ := exists_isAt shaped isPlace
  obtain ⟨node, reached, _⟩ := Node.mem_openings.1 (List.mem_of_getElem? isPlace)
  refine ⟨scope, node, found, reached, covers_node isText shaped nested isPlace reached,
    fun atOnce => ?_⟩
  have isSpan : scope.span = node.span :=
    (outlineAt_ofProgram isText shaped isPlace found).own reached atOnce
  refine ⟨isSpan, fun child isChild isParent => ?_⟩
  obtain ⟨other, isOther, inside⟩ :=
    holdsSpan_child isText shaped nested isPlace atOnce isChild isParent
  rw [reached, Option.some.injEq] at isOther
  rwa [isSpan, isOther]

/-- `class A extends B{constructor(){super();a.b}}` -/
def derivedClass : Node :=
  .mk .program ⟨0, 45⟩ [
    .mk (.classDefinition true) ⟨0, 45⟩ [
      .mk (.binding "A") ⟨6, 7⟩ [],
      .mk .heritage ⟨16, 17⟩ [.mk (.reference "B") ⟨16, 17⟩ []],
      .mk .classBody ⟨17, 45⟩ [
        .mk (.method false false) ⟨18, 44⟩ [
          .mk (.name "constructor") ⟨18, 29⟩ [],
          .mk (.function ⟨.method, false, false⟩) ⟨29, 44⟩ [
            .mk .parameters ⟨29, 31⟩ [],
            .mk .functionBody ⟨31, 44⟩ [
              .mk .expressionStatement ⟨32, 40⟩ [
                .mk (.call false) ⟨32, 39⟩ [.mk .superExpression ⟨32, 37⟩ []]],
              .mk .expressionStatement ⟨40, 43⟩ [
                .mk (.member "b" false) ⟨40, 43⟩ [
                  .mk (.reference "a") ⟨40, 41⟩ [],
                  .mk (.name "b") ⟨42, 43⟩ []]]]]]]]]

theorem spans_cover_their_scopes_of_derivedClass :
    derivedClass.kind = .program ∧ derivedClass.isWellShaped = true ∧
    derivedClass.isNested = true ∧ derivedClass.openings = [[], [0], [0, 2, 0, 1]] ∧
    derivedClass.opensAtOnce [0] = true ∧
    ∃ scope, (ofProgram derivedClass).get? 1 = some scope ∧ scope.span = ⟨0, 45⟩ ∧
      (ofProgram derivedClass).Covers 1 ⟨0, 45⟩ ∧
      ∀ child ∈ (ofProgram derivedClass).scopes, child.parent = some 1 →
        scope.span.contains child.span = true := by
  have shaped : derivedClass.isWellShaped = true := by decide
  have nested : derivedClass.isNested = true := by decide
  have isPlace : derivedClass.openings[1]? = some [0] := by decide
  have atOnce : derivedClass.opensAtOnce [0] = true := by decide
  obtain ⟨scope, node, found, reached, covers, whole⟩ :=
    spans_cover_their_scopes rfl shaped nested isPlace
  obtain ⟨isSpan, children⟩ := whole atOnce
  cases reached
  exact ⟨rfl, shaped, nested, by decide, atOnce, scope, found, isSpan, covers, children⟩

/-- `switch (a.b) { case 1: let x; }` -/
def switchOverMember : Node :=
  .mk .program ⟨0, 31⟩ [
    .mk .switchStatement ⟨0, 31⟩ [
      .mk (.member "b" false) ⟨8, 11⟩ [
        .mk (.reference "a") ⟨8, 9⟩ [],
        .mk (.name "b") ⟨10, 11⟩ []],
      .mk (.switchCase false) ⟨15, 29⟩ [
        .mk .numberLiteral ⟨20, 21⟩ [],
        .mk (.variableList .mutable) ⟨23, 29⟩ [
          .mk .declarator ⟨27, 28⟩ [.mk (.binding "x") ⟨27, 28⟩ []]]]]]

/-- The scope of a `switch` has the span of the name that stands before it. -/
theorem switch_scope_has_span_of_member :
    switchOverMember.kind = .program ∧ switchOverMember.isWellShaped = true ∧
    switchOverMember.isNested = true ∧ switchOverMember.openings[1]? = some [0] ∧
    switchOverMember.opensAtOnce [0] = false ∧
    ∃ scope, (ofProgram switchOverMember).get? 1 = some scope ∧ scope.span = ⟨10, 11⟩ ∧
      (scope.declarations.map fun entry => Declared.ofSite entry.1 entry.2) =
        [⟨"x", ⟨27, 28⟩, .variableName .mutable⟩] ∧
      scope.span.contains ⟨27, 28⟩ = false :=
  ⟨rfl, by decide, by decide, by decide, by decide, _, rfl, rfl, rfl, rfl⟩

end ScopeTable

end Codemod
