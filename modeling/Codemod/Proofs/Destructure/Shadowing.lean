import Codemod.Pipeline
import Codemod.Proofs.Destructure.Unconditional
import Codemod.Proofs.Scope.Binders

/-!
# Names that are bound otherwise

An access becomes a name only if the name cannot mean anything else in the
function that owns the access.  On the side of the syntax this says that
whatever binds the name inside the function takes it, under its own name and
without a default, from the component's properties.

Two things escape the planner.  Enumerations and namespaces bind names that no
scope declares.  And the name of a function declaration belongs to the scope
around the function; it may be the name of an access in the function, but then
the access sees a binding further inside.
-/

namespace Codemod

/--
Whatever binds the name in a declarator is a property of the chain, taken under
its own name and without a default.
-/
def Node.TakesProperty (declarator : Node) (name : String) (chain : MemberChain) : Prop :=
  ∃ place span parts value,
    declarator = mk .declarator place [mk .objectPattern span parts, value] ∧
    value.chain? = some chain ∧
    ∀ part ∈ parts, part.kind.isPatternPart = true → part.Occurs name →
      part.propertyKey? = some name ∧
        ∃ bound types, part.propertyValue? = some (mk (.binding name) bound types)

namespace Destructure

open ScopeTable Node

variable {setting : Setting} {owner : ScopeId} {name : String}

section

variable (wellFormed : setting.table.WellFormed)
include wellFormed

/-- What a function declares, a name of which it replaces accesses, is a property. -/
theorem isPropertyOf_of_unshadowed {site : Site}
    (unshadowed : isShadowed setting owner name = false)
    (declared : setting.table.DeclaresWithin owner name site) :
    site.isPropertyOf name setting.props = true := by
  obtain ⟨id, within, isDeclared⟩ := declared
  cases isProperty : site.isPropertyOf name setting.props with
  | true => rfl
  | false =>
    have shadowed := (isShadowed_iff wellFormed).2
      ⟨id, within, site, isDeclared.mem_sitesIn, isProperty⟩
    rw [unshadowed] at shadowed
    cases shadowed

theorem takesProperty_of_unshadowed (unshadowed : isShadowed setting owner name = false)
    {keyword : VariableKeyword} {span place : Span} {declarators rest : List Node} {pattern : Node}
    {access : Access} (member : mk .declarator place (pattern :: rest) ∈ declarators)
    (plain : pattern.kind ≠ .patternDefault) (occurs : pattern.Occurs name)
    (noted : ∀ step ∈ (mk (.variableList keyword) span declarators).trace access,
      setting.table.Notes owner step) :
    (mk .declarator place (pattern :: rest)).TakesProperty name setting.props := by
  have each : ∀ entry ∈ pattern.patternNames, entry.name = name →
      entry.place = .property (some name) false ∧
        (mk .declarator place (pattern :: rest)).declaratorValue?.bind chain? =
          some setting.props := by
    rintro entry isEntry rfl
    obtain ⟨reach, isStep⟩ := exists_declare_of_variable member isEntry access
    have isProperty := isPropertyOf_of_unshadowed wellFormed unshadowed
      ((noted _ isStep).declaresWithin .declare)
    simp only [Site.isPropertyOf, Bool.and_eq_true, beq_iff_eq] at isProperty
    exact ⟨isProperty.1.2, isProperty.2⟩
  obtain ⟨entry, isEntry, isName⟩ := occurs.exists_mem_patternNames
  obtain ⟨isPlace, isValue⟩ := each entry isEntry isName
  obtain ⟨patternSpan, parts, rfl, _⟩ := bindsProperty_of_mem_patternNames isEntry isPlace plain
  obtain ⟨value, hasValue, isChain⟩ := Option.bind_eq_some_iff.1 isValue
  unfold declaratorValue? at hasValue
  split at hasValue
  · next same =>
    cases same
    cases hasValue
    refine ⟨place, patternSpan, parts, value, rfl, isChain, fun part isPart kind inner => ?_⟩
    obtain ⟨own, isOwn, rfl⟩ := inner.exists_mem_propertyNames kind
    have inPattern := List.mem_flatMap.2 ⟨part, isPart, isOwn⟩
    obtain ⟨ownPlace, _⟩ := each own inPattern rfl
    obtain ⟨isKey, types, isBound⟩ := propertyValue?_of_mem_propertyNames isOwn ownPlace
    exact ⟨isKey, own.span, types, isBound⟩
  · cases hasValue

/--
A name that the scope around the owner declares otherwise is not what a
replaced access sees: the access sees a binding inside the owner.
-/
theorem reused_within_of_declared_around {owner : FunctionRecord} {judgement : Judgement}
    {scope : Scope} {parent : ScopeId} {site : Site} (judged : Judged setting owner judgement)
    (replaced : judgement.verdict.isReplaced = true)
    (found : setting.table.get? owner.scope = some scope) (around : scope.parent = some parent)
    (declared : setting.table.DeclaresIn parent judgement.name site)
    (fixed : site.kind.isVariable = false) :
    ∃ inner, judgement.verdict = .reused inner ∧ owner.scope ∈ setting.table.ancestors inner := by
  obtain ⟨_, _, isOwner, isVerdict⟩ := judged.candidate wellFormed
  obtain ⟨_, _, _, ends⟩ := (verdict_eq_iff replaced).1 isVerdict.symm
  have isSite := declared.mem_sitesIn
  have declares : setting.table.declares judgement.name parent = true := by
    rw [ScopeTable.declares, Bool.not_eq_true', List.isEmpty_eq_false_iff]
    exact List.ne_nil_of_mem isSite
  have ownWay := wellFormed.ancestors_cons found around
  have isAround : parent ∈ setting.table.ancestors owner.scope := by
    rw [ownWay]
    obtain ⟨parentScope, parentFound, _⟩ := declared
    exact List.mem_cons_of_mem _ (wellFormed.mem_ancestors_self (lt_length_of_get? parentFound))
  have seen := wellFormed.mem_ancestors_trans isOwner.around isAround
  split at ends
  · next resolution resolved =>
    refine ⟨resolution.scope, ends.2, ?_⟩
    obtain ⟨declaring, sites⟩ := resolve_eq_some_iff.1 resolved
    have properties := (bindingBlocker?_eq_none_iff.1 ends.1).1
    have isNearest : parent ≤ resolution.scope := by
      rw [declaringScope?_eq_find?] at declaring
      exact wellFormed.le_of_find?_ancestors declaring seen declares
    have onWay := (mem_ancestors_of_declaringScope? declaring).1
    rcases wellFormed.ancestors_linear isOwner.around onWay with within | outside
    · exact within
    · rw [ownWay, List.mem_cons] at outside
      rcases outside with isOwn | isOuter
      · rw [isOwn]
        exact wellFormed.mem_ancestors_self (lt_length_of_get? found)
      · have same := Nat.le_antisymm isNearest (wellFormed.le_of_mem_ancestors isOuter).1
        rw [sites, ← same] at properties
        have isProperty := properties site isSite
        simp [Site.isPropertyOf, fixed] at isProperty
  · next unresolved =>
    rw [resolve_eq_none_iff.1 unresolved parent seen] at declares
    cases declares

/-- What stands in the owner binds the name as a property, as far as scopes know of it. -/
theorem takesProperty_of_binds (unshadowed : isShadowed setting owner name = false) {inner : Node}
    {binder : Binder} {access : Access} (binds : inner.Binds binder name)
    (noted : ∀ step ∈ inner.trace access, setting.table.Notes owner step) :
    (∃ declarator, binder = .declarator declarator ∧ declarator.TakesProperty name setting.props) ∨
      binder = .enumeration ∨ binder = .namespaceDefinition := by
  rcases binds.exists_declares access with
    ⟨declarator, rfl⟩ | isEnumeration | isNamespace | ⟨step, isStep, site, declares, fixed⟩
  · cases binds with
    | declarator member plain occurs =>
      exact Or.inl ⟨_, rfl,
        takesProperty_of_unshadowed wellFormed unshadowed member plain occurs noted⟩
  · exact Or.inr (Or.inl isEnumeration)
  · exact Or.inr (Or.inr isNamespace)
  · have isProperty := isPropertyOf_of_unshadowed wellFormed unshadowed
      ((noted step isStep).declaresWithin declares)
    simp [Site.isPropertyOf, fixed] at isProperty

/-- The own name of the owner is declared around it, and the access does not see it. -/
theorem reused_within_of_ownName {owner : FunctionRecord} {judgement : Judgement} {node : Node}
    {binder : Binder} (judged : Judged setting owner judgement)
    (replaced : judgement.verdict.isReplaced = true)
    (unshadowed : isShadowed setting owner.scope judgement.name = false)
    (record : setting.table.IsRecord owner node) (binds : node.Binds binder judgement.name) :
    binder = .function ∧ ∃ inner, judgement.verdict = .reused inner ∧
      owner.scope ∈ setting.table.ancestors inner := by
  have isFunction := record.isFunction
  cases binds with
  | function given =>
    refine ⟨rfl, ?_⟩
    rcases exists_declares_of_function given with
      ⟨site, isKind, isStep⟩ | ⟨step, isStep, site, declares, isKind⟩
    · obtain ⟨scope, parent, found, around, declared⟩ := record.outer isStep
      exact reused_within_of_declared_around wellFormed judged replaced found around
        declared (by rw [isKind]; rfl)
    · have isProperty := isPropertyOf_of_unshadowed wellFormed unshadowed
        ((record.inner step isStep).declaresWithin declares)
      simp [Site.isPropertyOf, isKind, DeclarationKind.isVariable] at isProperty
  | _ => cases isFunction

end

/--
If an access of a function becomes a name, then the name is not reserved, and
whatever binds it in the function takes it, under its own name and without a
default, from the component's properties.  Enumerations and namespaces are
overlooked, and the function may have the name itself, if the access sees a
binding inside the function.
-/
theorem replaced_names_are_bound_as_properties (program : Program)
    (options : TransformOptions) (isText : program.root.kind = .program)
    {owner : FunctionRecord} {judgement : Judgement}
    (judged : Judged (.ofProgram program options) owner judgement)
    (replaced : judgement.verdict.isReplaced = true) :
    let setting := Setting.ofProgram program options
    Text.isReserved judgement.name = false ∧
    ∃ node, Lists program.root owner node ∧
      ∀ inner ∈ node.nodes, ∀ binder, inner.Binds binder judgement.name →
        (∃ declarator, binder = .declarator declarator ∧
          declarator.TakesProperty judgement.name setting.props) ∨
        binder = .enumeration ∨ binder = .namespaceDefinition ∨
        (binder = .function ∧ inner = node ∧ ∃ scope,
          judgement.verdict = .reused scope ∧
            owner.scope ∈ setting.table.ancestors scope) := by
  intro setting
  have wellFormed := wellFormed_ofProgram program options
  obtain ⟨_, _, unreserved, _, isVerdict⟩ := (judged_iff wellFormed).1 judged
  obtain ⟨_, nameUnblocked, _⟩ := (verdict_eq_iff replaced).1 isVerdict.symm
  have unshadowed := (nameBlocker?_eq_none_iff.1 nameUnblocked).2.2
  obtain ⟨node, lists, record⟩ := exists_isRecord isText judged.member
  refine ⟨unreserved, node, lists, fun inner member binder binds => ?_⟩
  rcases record.notes member with rfl | ⟨access, noted⟩
  · obtain ⟨isFunction, reused⟩ :=
      reused_within_of_ownName wellFormed judged replaced unshadowed record binds
    exact Or.inr (Or.inr (Or.inr ⟨isFunction, rfl, reused⟩))
  · rcases takesProperty_of_binds wellFormed unshadowed binds noted with
      takes | isEnumeration | isNamespace
    · exact Or.inl takes
    · exact Or.inr (Or.inl isEnumeration)
    · exact Or.inr (Or.inr (Or.inl isNamespace))

/-- A function with an enumeration and a read of a property of the same name. -/
def enumeratedRead : List Char :=
  "function f() { enum x { A } return this.props.x; }".toList

/-- Whether a node is the enumeration of a name. -/
def isEnumeration (name : String) : Node → Bool
  | .mk .enumDeclaration _ (.mk (.binding text) _ _ :: _) => text == name
  | _ => false

theorem binds_of_isEnumeration {node : Node} (found : isEnumeration name node = true) :
    node.Binds .enumeration name := by
  unfold isEnumeration at found
  split at found
  · rw [← beq_iff_eq.1 found]
    exact .enumeration
  · cases found

/-- In the sample the access becomes a name that an enumeration binds. -/
theorem replaced_names_are_bound_as_properties_in_enumeratedRead :
    ∃ program, parseProgram (.ofPath "a.ts") enumeratedRead = some program ∧
      ∃ owner judgement node, Judged (.ofProgram program .standard) owner judgement ∧
        judgement.verdict.isReplaced = true ∧
        Text.isReserved judgement.name = false ∧ Lists program.root owner node ∧
        ∃ inner ∈ node.nodes, inner.Binds .enumeration judgement.name := by
  obtain ⟨program, parsed, enumerated, owner, member, judgement, judged, replaced, isName⟩ :
      ∃ program ∈ parseProgram (.ofPath "a.ts") enumeratedRead,
        (∀ node ∈ program.root.functions, node.nodes.any (isEnumeration "x") = true) ∧
        ∃ owner ∈ (Setting.ofProgram program .standard).table.functions,
        ∃ judgement ∈ judgements (.ofProgram program .standard)
          (candidates (.ofProgram program .standard)) owner,
          judgement.verdict.isReplaced = true ∧ judgement.name = "x" := by
    decide +kernel
  obtain ⟨unreserved, node, lists, _⟩ := replaced_names_are_bound_as_properties program
    .standard (kind_of_parseProgram parsed) ⟨member, judged⟩ replaced
  obtain ⟨inner, isInner, found⟩ := List.any_eq_true.1 (enumerated node lists.mem)
  exact ⟨program, parsed, owner, judgement, node, ⟨member, judged⟩, replaced, unreserved,
    lists, inner, isInner, isName ▸ binds_of_isEnumeration found⟩

/-- What becomes of the sample declares the name of the enumeration once more. -/
theorem enumeration_meets_new_binding :
    ∃ output, Transform.propsToDestructuring.run (.ofPath "a.ts") .standard
        enumeratedRead = some output ∧
      output.text =
        "function f() { const { x } = this.props; enum x { A } return x; }".toList :=
  Option.map_eq_some_iff.1 (by decide +kernel)

end Destructure

end Codemod
