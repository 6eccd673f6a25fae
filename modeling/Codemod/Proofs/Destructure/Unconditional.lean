import Codemod.Proofs.Destructure.Verdicts
import Codemod.Proofs.Scope.Variables
import Codemod.Proofs.Tree.Nesting

/-!
# Reused bindings are unconditional

A binding is reused only if the statement that declares it has run whenever
the access runs.  The planner asks for less than that: the binding's site has
to lie, as a range of text, in a statement of the function's body that takes
an object apart.  For the variables of the function itself this is enough,
because such a statement holds no other statement of that function.

It is not enough where a static block stands between: the block's statements
lie inside an expression, hence inside a statement of the body, but they are
not statements of the body.
-/

namespace Codemod

namespace Node

/-- A part of an object pattern binds a name to the property of a key. -/
structure BindsProperty (part : Node) (key : Option String)
    (entry : PatternName) : Prop where
  kind_eq : ∃ isShorthand isComputed,
    part.kind = .patternProperty isShorthand isComputed
  key_eq : part.propertyKey? = key
  binding : ∃ inner, mk (.binding entry.name) entry.span inner ∈ part.children

variable {part : Node} {entry : PatternName} {key : Option String}

/-- A name that is bound to a property without a default is the value of the property. -/
theorem propertyValue?_of_mem_propertyNames (member : entry ∈ part.propertyNames)
    (place : entry.place = .property key false) :
    part.propertyKey? = key ∧
      ∃ types, part.propertyValue? = some (mk (.binding entry.name) entry.span types) := by
  have notNested {value : Node} (nested : entry ∈ value.nestedNames) : False := by
    obtain ⟨_, _, rfl⟩ := List.mem_map.1 nested
    cases place
  unfold propertyNames at member
  split at member
  · rw [List.mem_singleton] at member
    rw [member] at place
    cases place
  · exact absurd member notNested
  · split at member
    · next isValue =>
      rw [List.mem_singleton] at member
      subst member
      cases place
      exact ⟨rfl, _, isValue⟩
    · rw [List.mem_singleton] at member
      rw [member] at place
      cases place
    · exact absurd member notNested
    · cases member

theorem bindsProperty_of_mem_propertyNames (member : entry ∈ part.propertyNames)
    (place : entry.place = .property key false) : part.BindsProperty key entry := by
  obtain ⟨isKey, types, isValue⟩ := propertyValue?_of_mem_propertyNames member place
  unfold propertyValue? at isValue
  split at isValue
  · exact ⟨⟨_, _, rfl⟩, isKey, _, List.mem_of_getLast? isValue⟩
  · cases isValue

/-- Only object patterns bind names to properties. -/
theorem bindsProperty_of_mem_patternNames {pattern : Node} (member : entry ∈ pattern.patternNames)
    (place : entry.place = .property key false) (plain : pattern.kind ≠ .patternDefault) :
    ∃ span parts, pattern = mk .objectPattern span parts ∧
      ∃ part ∈ parts, part.BindsProperty key entry := by
  unfold patternNames at member
  split at member
  · rw [List.mem_singleton] at member
    rw [member] at place
    cases place
  · next span parts =>
    obtain ⟨part, isPart, isEntry⟩ := List.mem_flatMap.1 member
    exact ⟨span, parts, rfl, part, isPart, bindsProperty_of_mem_propertyNames isEntry place⟩
  · cases plain rfl
  · obtain ⟨_, _, rfl⟩ := List.mem_map.1 member
    cases place

theorem BindsProperty.contains (binds : part.BindsProperty key entry)
    (placed : part.isWellPlaced = true) :
    part.span.contains entry.span = true ∧ entry.span.start < entry.span.stop := by
  obtain ⟨kind, span, children⟩ := part
  obtain ⟨parts, each⟩ := isWellPlaced_mk.1 placed
  obtain ⟨inner, isBinding⟩ := binds.binding
  constructor
  · refine contains_of_arePartsPlaced parts ?_ isBinding
    obtain ⟨isShorthand, isComputed, isProperty⟩ := binds.kind_eq
    cases isProperty
    rfl
  · have own := (isWellPlaced_mk.1 (each _ isBinding)).1
    exact of_decide_eq_true (own_of_arePartsPlaced own)

variable {name : String} {site : Site} {chain : MemberChain}

/-- A destructuring takes a property of a chain, and the site lies in its pattern. -/
structure Takes (destructuring : Destructuring) (name : String)
    (chain : MemberChain) (site : Site) : Prop where
  value : destructuring.value = some chain
  key : destructuring.hasKey name = true
  pattern : destructuring.pattern.contains site.span = true

variable {keyword : VariableKeyword}

/-- A declarator that declares a property of a chain takes it. -/
theorem IsDeclared.takes {declarator : Node} (declared : IsDeclared keyword declarator name site)
    (placed : declarator.isWellPlaced = true) (isProperty : site.isPropertyOf name chain = true)
    (statement : Span) :
    (∃ destructuring, destructuring? statement declarator = some destructuring ∧
      destructuring.statement = statement ∧ Takes destructuring name chain site) ∧
    declarator.span.start ≤ site.span.start ∧ site.span.start < site.declaredEnd ∧
      site.declaredEnd = declarator.span.stop := by
  obtain ⟨span, pattern, rest, rfl, entry, isEntry, rfl, rfl⟩ := declared
  simp only [Site.isPropertyOf, Bool.and_eq_true, beq_iff_eq] at isProperty
  obtain ⟨⟨_, place⟩, value⟩ := isProperty
  obtain ⟨parts, each⟩ := isWellPlaced_mk.1 placed
  have plain : pattern.kind ≠ .patternDefault := by
    simpa [areOwnPartsPlaced] using own_of_arePartsPlaced parts
  have inDeclarator := contains_of_arePartsPlaced parts rfl List.mem_cons_self
  obtain ⟨patternSpan, properties, rfl, part, isPart, binds⟩ :=
    bindsProperty_of_mem_patternNames isEntry place plain
  obtain ⟨patternParts, eachProperty⟩ := isWellPlaced_mk.1 (each _ List.mem_cons_self)
  have inPattern := contains_of_arePartsPlaced patternParts rfl isPart
  obtain ⟨inPart, isLong⟩ := binds.contains (eachProperty part isPart)
  have inWhole := Span.contains_trans inPattern inPart
  refine ⟨⟨_, rfl, rfl, value, ?_, inWhole⟩, ?_⟩
  · simp only [Destructuring.hasKey, List.any_map, List.any_eq_true, List.mem_filter,
      Function.comp_apply, beq_iff_eq]
    refine ⟨part, ⟨isPart, ?_⟩, binds.key_eq⟩
    obtain ⟨isShorthand, isComputed, isKind⟩ := binds.kind_eq
    simp [isKind]
  · simp only [Span.contains_iff, Node.span_mk] at inDeclarator inWhole
    have ordered : span.start ≤ entry.span.start ∧ entry.span.start < span.stop := by
      omega
    exact ⟨ordered.1, ordered.2, rfl⟩

/-- What a node declares lies inside the node. -/
theorem Declares.within {node : Node} (declared : node.Declares name site)
    (placed : node.isWellPlaced = true)
    (isProperty : site.isPropertyOf name chain = true) :
    node.span.start ≤ site.span.start ∧ site.span.start < site.declaredEnd ∧
      site.declaredEnd ≤ node.span.stop := by
  induction declared with
  | here member declared =>
    obtain ⟨parts, each⟩ := isWellPlaced_mk.1 placed
    have inList := contains_of_arePartsPlaced parts rfl member
    obtain ⟨_, first, second, third⟩ := declared.takes (each _ member) isProperty ⟨0, 0⟩
    simp only [Span.contains_iff] at inList
    simp only [span_mk]
    omega
  | inside isOpen member declared ih =>
    obtain ⟨parts, each⟩ := isWellPlaced_mk.1 placed
    have mayDeclare := (Declares.inside isOpen member declared).mayDeclare placed
    have encloses : Kind.encloses _ = true := Kind.encloses_of_mayDeclare mayDeclare
    have inNode := contains_of_arePartsPlaced parts encloses member
    have inChild := ih (each _ member) isProperty
    simp only [Span.contains_iff] at inNode
    simp only [span_mk]
    omega

/-- A list of variables that declares a property takes it. -/
theorem Declares.takes {span : Span} {declarators : List Node}
    (declared : (mk (.variableList keyword) span declarators).Declares name site)
    (placed : (mk (.variableList keyword) span declarators).isWellPlaced = true)
    (isProperty : site.isPropertyOf name chain = true) :
    ∃ destructuring ∈ destructurings [mk (.variableList keyword) span declarators],
      Takes destructuring name chain site := by
  obtain ⟨parts, each⟩ := isWellPlaced_mk.1 placed
  cases declared with
  | here member declared =>
    obtain ⟨⟨destructuring, found, _, takes⟩, _⟩ := declared.takes (each _ member) isProperty span
    refine ⟨destructuring, ?_, takes⟩
    simp only [destructurings, List.flatMap_cons, List.flatMap_nil, List.append_nil,
      List.mem_filterMap]
    exact ⟨_, member, found⟩
  | inside isOpen member declared =>
    have declares := declared.mayDeclare (each _ member)
    rw [mayDeclare_eq_false_of_isEmpty (own_of_arePartsPlaced parts) member]
      at declares
    cases declares

variable {destructuring : Destructuring}

theorem mem_destructurings {statements : List Node} : destructuring ∈ destructurings statements ↔
      ∃ statement ∈ statements, destructuring ∈ destructurings [statement] := by
  simp [destructurings]

theorem statement_of_mem_destructurings {statement : Node}
    (member : destructuring ∈ destructurings [statement]) :
    destructuring.statement = statement.span ∧
      ∃ keyword, statement.kind = .variableList keyword := by
  simp only [destructurings, List.flatMap_cons, List.flatMap_nil, List.append_nil] at member
  split at member
  · obtain ⟨declarator, _, found⟩ := List.mem_filterMap.1 member
    unfold destructuring? at found
    split at found
    · cases found
      exact ⟨rfl, _, rfl⟩
    · cases found
  · cases member

end Node

/--
A property that the body of a function declares is taken by the destructuring
in whose statement it lies.
-/
theorem FunctionShape.Keeps.takes {function : FunctionShape} {name : String}
    {site : Site} {chain : MemberChain} (keeps : function.Keeps name site)
    (isProperty : site.isPropertyOf name chain = true)
    {destructuring : Destructuring} (member : destructuring ∈ function.destructurings)
    (starts : destructuring.statement.start ≤ site.span.start)
    (stops : site.declaredEnd ≤ destructuring.statement.stop) :
    ∃ taking ∈ function.destructurings, Node.Takes taking name chain site := by
  obtain ⟨body, isBody, placed, same, declared⟩ := keeps
  obtain ⟨kind, span, children⟩ := body
  cases isBody
  obtain ⟨parts, each⟩ := Node.isWellPlaced_mk.1 placed
  have ordered : children.Pairwise fun first second =>
      first.span.stop ≤ second.span.start :=
    of_decide_eq_true (Node.own_of_arePartsPlaced parts)
  rw [same] at member ⊢
  obtain ⟨statement, isStatement, isOwn⟩ := Node.mem_destructurings.1 member
  obtain ⟨spanned, keyword, isList⟩ := Node.statement_of_mem_destructurings isOwn
  have isChild : statement ∈ children := (List.mem_filter.1 isStatement).1
  cases declared with
  | inside isOpen member declared =>
    obtain ⟨first, second, third⟩ := declared.within (each _ member) isProperty
    rw [spanned] at starts stops
    have isSame := Node.eq_of_overlap ordered isChild member
      (Nat.lt_of_le_of_lt starts (Nat.lt_of_lt_of_le second third))
      (Nat.lt_of_le_of_lt first (Nat.lt_of_lt_of_le second stops))
    subst isSame
    obtain ⟨_, listSpan, declarators⟩ := statement
    cases isList
    obtain ⟨taking, isTaking, takes⟩ := declared.takes (each _ member) isProperty
    exact ⟨taking, Node.mem_destructurings.2 ⟨_, isStatement, isTaking⟩, takes⟩

namespace Destructure

open ScopeTable

variable {id : ScopeId}

/-- The site of a resolution stands among the declarations of its scope. -/
theorem hasVariable_of_resolve {table : ScopeTable} {name : String} {resolution : Resolution}
    (resolved : table.resolve id name = some resolution) {site : Site}
    (member : site ∈ resolution.sites) (isVariable : site.kind.isVariable = true) :
    table.HasVariable resolution.scope name site := by
  obtain ⟨_, sites⟩ := resolve_eq_some_iff.1 resolved
  rw [sites, sitesIn] at member
  split at member
  · next scope found =>
    simp only [Scope.sites, List.mem_map, List.mem_filter, beq_iff_eq] at member
    obtain ⟨⟨_, _⟩, ⟨declared, rfl⟩, rfl⟩ := member
    exact ⟨isVariable, scope, found, declared⟩
  · cases member

/-- No function nearer than the enclosing one is around a scope. -/
theorem le_of_enclosingFunction? {table : ScopeTable} (wellFormed : table.WellFormed)
    {binder function : FunctionRecord} (enclosing : table.enclosingFunction? id = some binder)
    (member : function ∈ table.functions) (around : function.scope ∈ table.ancestors id) :
    function.scope ≤ binder.scope := by
  obtain ⟨before, found, after, way, isFunction, nearer⟩ := List.findSome?_eq_some_iff.1 enclosing
  have isScope := wellFormed.scope_of_function? isFunction
  have ordered := wellFormed.ancestors_decreasing id
  rw [way] at around ordered
  rcases List.mem_append.1 around with isNearer | isRest
  · have none_ := nearer _ isNearer
    rw [wellFormed.function?_scope member] at none_
    cases none_
  · rw [List.pairwise_append, List.pairwise_cons] at ordered
    rw [isScope]
    rcases List.mem_cons.1 isRest with isSame | isOuter
    · exact Nat.le_of_eq isSame
    · exact Nat.le_of_lt (ordered.2.1.1 _ isOuter)

/-- A static block lies between a scope and a function around it. -/
def IsInStaticBlock (table : ScopeTable) (scope function : ScopeId) : Prop :=
  ∃ block ∈ table.ancestors scope, function < block ∧
    ∃ found, table.get? block = some found ∧ found.kind = .staticBlock

/--
The variables of a scope belong to the function around it, unless a static
block lies between the two.
-/
theorem keeps_or_isInStaticBlock {program : Node} (isText : program.kind = .program)
    (placed : program.isWellPlaced = true) {name : String} {site : Site}
    (declared : (ofProgram program).HasVariable id name site) {binder : FunctionRecord}
    (enclosing : (ofProgram program).enclosingFunction? id = some binder) :
    binder.Keeps name site ∨ IsInStaticBlock (ofProgram program) id binder.scope := by
  have wellFormed := ScopeTable.wellFormed_ofProgram program
  obtain ⟨binderMember, binderAround⟩ := wellFormed.mem_of_enclosingFunction? enclosing
  obtain ⟨own, ownFound, isFunction⟩ := isFunctionScope_of_mem_functions binderMember
  obtain ⟨holder, scope, held, found, owner⟩ := holder_of_hasVariable isText placed declared
  have holds : (ofProgram program).holdsVariables binder.scope = true := by
    rcases isFunction with isKind | isKind <;>
      simp [holdsVariables, ownFound, isKind, ScopeKind.holdsVariables]
  have notNearer := le_of_holder? wellFormed held binderAround holds
  have kindOf (isHolder : binder.scope = holder) : scope = own := by
    rw [isHolder, found] at ownFound
    exact Option.some.inj ownFound
  rcases owner with ⟨isRootKind, isRoot⟩ | isBlock | ⟨function, member, isHolder, keeps⟩
  · rw [isRoot] at notNearer
    have isOwn := kindOf ((Nat.le_zero.1 notNearer).trans isRoot.symm)
    rw [isOwn] at isRootKind
    rcases isFunction with isKind | isKind <;> simp [isKind] at isRootKind
  · refine Or.inr ⟨holder, (holder?_spec held).1, ?_, scope, found, isBlock⟩
    refine Nat.lt_of_le_of_ne notNearer fun isHolder => ?_
    rw [kindOf isHolder] at isBlock
    rcases isFunction with isKind | isKind <;> simp [isKind] at isBlock
  · refine Or.inl ?_
    have around : function.scope ∈ (ofProgram program).ancestors id :=
      isHolder ▸ (holder?_spec held).1
    have notFarther := le_of_enclosingFunction? wellFormed enclosing member around
    have same : function.scope = binder.scope := Nat.le_antisymm notFarther (isHolder ▸ notNearer)
    have isFunctionFound := wellFormed.function?_scope member
    rw [same, wellFormed.function?_scope binderMember] at isFunctionFound
    rw [Option.some.inj isFunctionFound]
    exact keeps

/--
A binding that an access reuses is complete before the access and, unless a
static block separates its scope from the function around it, is taken from
the properties by a statement of the function's body itself.
-/
theorem reused_bindings_are_unconditional (program : Program)
    (options : TransformOptions) (isText : program.root.kind = .program)
    (placed : program.root.isWellPlaced = true)
    {function : FunctionRecord} {judgement : Judgement} {scope : ScopeId}
    (judged : Judged (Setting.ofProgram program options) function judgement)
    (reused : judgement.verdict = .reused scope) :
    let setting := Setting.ofProgram program options
    ∃ sites binder,
      setting.table.resolve judgement.access.scope judgement.name =
        some ⟨scope, sites⟩ ∧
      setting.table.enclosingFunction? scope = some binder ∧
      ∀ site ∈ sites,
        site.isPropertyOf judgement.name setting.props = true ∧
        site.declaredEnd ≤ judgement.access.span.start ∧
        ((∃ destructuring ∈ binder.destructurings,
            Node.Takes destructuring judgement.name setting.props site) ∨
          IsInStaticBlock setting.table scope binder.scope) := by
  intro setting
  obtain ⟨_, _, _, isVerdict⟩ :=
    judged.candidate (wellFormed_ofProgram program options)
  rw [isVerdict] at reused
  obtain ⟨_, _, _, ⟨_, sites⟩, resolved, unblocked, rfl⟩ :=
    verdict_eq_reused_iff.1 reused
  obtain ⟨properties, complete, _, ⟨binder, isBinder, lies⟩, _⟩ :=
    bindingBlocker?_eq_none_iff.1 unblocked
  refine ⟨sites, binder, resolved, isBinder, fun site member => ?_⟩
  have isProperty := properties site member
  refine ⟨isProperty, complete site member, ?_⟩
  have isVariable : site.kind.isVariable = true := by
    simp only [Site.isPropertyOf, Bool.and_eq_true] at isProperty
    exact isProperty.1.1
  rcases keeps_or_isInStaticBlock isText placed
      (hasVariable_of_resolve resolved member isVariable) isBinder with keeps | inBlock
  · obtain ⟨destructuring, isOwn, within⟩ := List.any_eq_true.1 (lies site member)
    simp only [Bool.and_eq_true, decide_eq_true_eq] at within
    exact Or.inl (keeps.takes isProperty isOwn within.1 within.2)
  · exact Or.inr inBlock

/--
A statement takes an object apart, and inside its value a static block
declares a name in one of its branches that a function then reads.
-/
def blockedRead : Option Program :=
  parseProgram .plain
    "function f() { const { a } = class { static { if (c) { var { x } = this.props; }
      this.g = () => { return this.props.x; }; } }; return a; }".toList

/--
In the sample the access in the arrow function becomes the name that only the
branch declares: no statement of the function's body takes it.
-/
theorem reused_bindings_are_unconditional_in_blockedRead :
    ∃ program, blockedRead = some program ∧ ∃ function judgement scope binder,
      Judged (.ofProgram program .standard) function judgement ∧
      judgement.verdict = .reused scope ∧
      (Setting.ofProgram program .standard).table.enclosingFunction? scope =
        some binder ∧
      binder.destructurings.all (fun destructuring =>
        !destructuring.hasKey judgement.name) = true ∧
      IsInStaticBlock (Setting.ofProgram program .standard).table scope
        binder.scope := by
  obtain ⟨program, parsed, isText, placed, function, member, judgement, judged, reused, single,
    keyless⟩ : ∃ program ∈ blockedRead,
      program.root.kind = .program ∧ program.root.isWellPlaced = true ∧
        ∃ function ∈ (Setting.ofProgram program .standard).table.functions,
        ∃ judgement ∈ judgements (.ofProgram program .standard)
          (candidates (.ofProgram program .standard)) function,
          judgement.verdict = .reused 3 ∧
          ((Setting.ofProgram program .standard).table.sitesIn 3
            judgement.name).length = 1 ∧
          ∀ binder ∈ (Setting.ofProgram program .standard).table.enclosingFunction? 3,
            binder.destructurings.all (fun destructuring =>
              !destructuring.hasKey judgement.name) = true := by
    decide +kernel
  obtain ⟨sites, binder, resolved, enclosing, each⟩ :=
    reused_bindings_are_unconditional program .standard isText placed
      ⟨member, judged⟩ reused
  have lacks := keyless binder enclosing
  refine ⟨program, parsed, function, judgement, 3, binder, ⟨member, judged⟩, reused,
    enclosing, lacks, ?_⟩
  obtain ⟨_, isSites⟩ := resolve_eq_some_iff.1 resolved
  obtain ⟨site, isSite⟩ : ∃ site, site ∈ sites := by
    refine List.exists_mem_of_ne_nil sites fun empty => ?_
    simp only [empty] at isSites
    rw [← isSites] at single
    cases single
  rcases (each site isSite).2.2 with ⟨destructuring, isOwn, takes⟩ | inBlock
  · have absurd_ := List.all_eq_true.1 lacks destructuring isOwn
    rw [takes.key] at absurd_
    cases absurd_
  · exact inBlock

end Destructure

end Codemod
