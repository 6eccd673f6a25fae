import Codemod.Proofs.Scope.Sites

/-!
# Where declarations land

Every identifier that a construct binds is declared exactly once in each scope
that the construct reaches, and a scope declares nothing else.  An identifier is
reached from one construct only (`ways_eq`), so the place of the identifier tells
the declarations of a scope apart (`enumerates_declarations`).
-/

namespace Codemod

open Trace ScopeTable

/-- A name with where it stands and what declares it. -/
structure Declared where
  name : String
  span : Span
  kind : DeclarationKind
  deriving DecidableEq, Repr

/-- What a declaration of a name comes to, its place in a pattern left aside. -/
def Declared.ofSite (name : String) (site : Site) : Declared :=
  ⟨name, site.span, site.kind⟩

/-- The declaration that a note is, if it is one. -/
def Note.declared? : Note → Option Declared
  | declaration name site => some (.ofSite name site)
  | _ => none

namespace Node

variable {root : Node}

/-! ## Identifiers and their constructs -/

variable {place identifier scope : Place} {reach : Option Reach} {declared : Declared}
  {entry : String × Site}

/--
The construct at a place declares an identifier: how far the declaration reaches,
and what is declared.
-/
inductive DeclaresAt (root : Node) (identifier place : Place) : Option Reach → Declared → Prop
  | intro {node : Node} {outer inner : Place} {introduction : Introduction} {name : String}
      {span : Span} (reached : root.at? place = some node)
      (introduces : node.Introduces outer introduction)
      (isBound : introduction.pattern.BoundAt name span inner)
      (isIdentifier : place ++ (outer ++ inner) = identifier) :
      DeclaresAt root identifier place introduction.reach ⟨name, span, introduction.kind⟩

/-- An identifier of a tree is declared in the scope of a node. -/
def DeclaredIn (root : Node) (scope identifier : Place) (declared : Declared) : Prop :=
  ∃ place reach, root.DeclaresAt identifier place reach declared ∧
    root.lands place reach scope = true

/--
The construct at a place declares an identifier: how far the declaration reaches,
and the name with its site.
-/
inductive SitedAt (root : Node) (identifier place : Place) : Option Reach → String × Site → Prop
  | intro {node : Node} {outer inner : Place} {introduction : Introduction} {name : String}
      {span : Span} {standing : PatternPlace} (reached : root.at? place = some node)
      (introduces : node.Introduces outer introduction)
      (isBound : introduction.pattern.BoundAt name span inner)
      (stands : introduction.pattern.StandsAt inner standing)
      (isIdentifier : place ++ (outer ++ inner) = identifier) :
      SitedAt root identifier place introduction.reach
        (name, ⟨span, introduction.kind, standing, node.declaratorAt? outer⟩)

/-- An identifier of a tree is declared in the scope of a node, with its site. -/
def SitedIn (root : Node) (scope identifier : Place) (entry : String × Site) : Prop :=
  ∃ place reach, root.SitedAt identifier place reach entry ∧ root.lands place reach scope = true

theorem SitedAt.declaresAt (isSited : root.SitedAt identifier place reach entry) :
    root.DeclaresAt identifier place reach (.ofSite entry.1 entry.2) := by
  obtain ⟨reached, introduces, isBound, _, isIdentifier⟩ := isSited
  exact ⟨reached, introduces, isBound, isIdentifier⟩

theorem SitedIn.declaredIn (isSited : root.SitedIn scope identifier entry) :
    root.DeclaredIn scope identifier (.ofSite entry.1 entry.2) := by
  obtain ⟨place, reach, isSited, lands⟩ := isSited
  exact ⟨place, reach, isSited.declaresAt, lands⟩

/-- Each identifier that is declared has a site. -/
theorem DeclaredIn.exists_site (isDeclared : root.DeclaredIn scope identifier declared) :
    ∃ entry, root.SitedIn scope identifier entry ∧ Declared.ofSite entry.1 entry.2 = declared := by
  obtain ⟨place, reach, ⟨reached, introduces, isBound, isIdentifier⟩, lands⟩ := isDeclared
  obtain ⟨standing, stands⟩ := exists_standsAt _ _
  exact ⟨_, ⟨place, _, ⟨reached, introduces, isBound, stands, isIdentifier⟩, lands⟩, rfl⟩

/-- The identifier that a construct declares is a name with the span that is declared. -/
theorem DeclaresAt.at?_identifier (declares : root.DeclaresAt identifier place reach declared) :
    ∃ types, root.at? identifier = some (mk (.binding declared.name) declared.span types) := by
  obtain ⟨reached, introduces, isBound, rfl⟩ := declares
  obtain ⟨types, isName⟩ := isBound.at?_eq
  refine ⟨types, ?_⟩
  rw [at?_append, reached, Option.bind_some, at?_append, introduces.at?_eq, Option.bind_some]
  exact isName

/-- No construct stands on the way from another one to an identifier that it declares. -/
theorem eq_nil_of_way {node other : Node} {outer inner way rest another : Place}
    {introduction further : Introduction} {name : String} {span : Span}
    (introduces : node.Introduces outer introduction)
    (isBound : introduction.pattern.BoundAt name span inner)
    (reached : node.at? way = some other) (isOther : other.Introduces another further)
    (isWay : way ++ rest = outer ++ inner) : way = [] := by
  by_contra notHere
  have declares := isOther.declaresNames
  have notBelow : ∀ below, way = outer ++ below → inner ≠ below ++ rest := by
    rintro below rfl rfl
    rw [at?_append, introduces.at?_eq, Option.bind_some] at reached
    rw [(isBound.of_at? reached).declaresNames_eq] at declares
    cases declares
  -- The other construct stands above the pattern or in it.
  rcases List.append_eq_append_iff.1 isWay with
    ⟨middle, isOuter, isRest⟩ | ⟨below, isBelow, isInner⟩
  · cases middle with
    | nil => exact notBelow [] (by simpa using isOuter.symm) (by simpa using isRest.symm)
    | cons index middle =>
      subst isOuter
      rw [introduces.declaresNames_between reached notHere (List.cons_ne_nil _ _)] at declares
      cases declares
  · exact notBelow below isBelow isInner

theorem place_eq_of_below {node other : Node} {outer inner place further another below : Place}
    {introduction second : Introduction} {name : String} {span : Span}
    (reached : root.at? place = some node) (introduces : node.Introduces outer introduction)
    (isBound : introduction.pattern.BoundAt name span inner)
    (reachedOther : root.at? further = some other) (isOther : other.Introduces another second)
    (isBelow : place <+: further)
    (same : place ++ (outer ++ inner) = further ++ (another ++ below)) : place = further := by
  obtain ⟨way, rfl⟩ := isBelow
  rw [at?_append, reached, Option.bind_some] at reachedOther
  rw [List.append_assoc, List.append_cancel_left_eq] at same
  rw [eq_nil_of_way introduces isBound reachedOther isOther same.symm, List.append_nil]

/-- One construct at most declares an identifier, and it does so in one way. -/
theorem ways_eq {first second : Place × Place × Place} {node other : Node}
    {introduction further : Introduction} {name another : String} {span place : Span}
    (reached : root.at? first.1 = some node) (introduces : node.Introduces first.2.1 introduction)
    (isBound : introduction.pattern.BoundAt name span first.2.2)
    (reachedOther : root.at? second.1 = some other)
    (isOther : other.Introduces second.2.1 further)
    (isBoundOther : further.pattern.BoundAt another place second.2.2)
    (same : first.1 ++ (first.2.1 ++ first.2.2) = second.1 ++ (second.2.1 ++ second.2.2)) :
    first = second := by
  obtain ⟨construct, outer, inner⟩ := first
  obtain ⟨construct', outer', inner'⟩ := second
  have samePlace : construct = construct' := by
    rcases List.prefix_or_prefix_of_prefix (List.prefix_append construct (outer ++ inner))
        (same ▸ List.prefix_append construct' (outer' ++ inner')) with isBelow | isAbove
    · exact place_eq_of_below reached introduces isBound reachedOther isOther isBelow same
    · exact (place_eq_of_below reachedOther isOther isBoundOther reached introduces isAbove
        same.symm).symm
  subst samePlace
  rw [reached, Option.some.injEq] at reachedOther
  subst reachedOther
  obtain ⟨sameOuter, sameInner⟩ := List.append_inj (List.append_cancel_left same)
    (introduces.length_eq isOther)
  exact Prod.ext rfl (Prod.ext sameOuter sameInner)

end Node

namespace ScopeTable

variable {root : Node} {id : ScopeId} {place : Place} {scope : Scope}

theorem filterMap_usesOf (table : ScopeTable) (id : ScopeId) :
    (table.usesOf id).filterMap Note.sited? = [] := by
  rw [List.filterMap_eq_nil_iff]
  intro note member
  simp only [usesOf, List.mem_append, List.mem_map] at member
  rcases member with (⟨_, _, rfl⟩ | ⟨_, _, rfl⟩) | ⟨_, _, rfl⟩
  all_goals rfl

theorem read_sited {table : ScopeTable} (found : table.get? id = some scope) :
    View.sited.read table id = scope.declarations := by
  change (table.notesOf id).filterMap Note.sited? = _
  rw [notesOf, List.filterMap_append, filterMap_usesOf, List.append_nil, declarationsOf_eq found,
    List.filterMap_map]
  exact List.filterMap_some

theorem sitedIn_iff {identifier : Place} {entry : String × Site} :
    root.SitedIn place identifier entry ↔ ∃ ways : Place × Place × Place,
      ways.1 ++ (ways.2.1 ++ ways.2.2) = identifier ∧
        ∃ reach, root.sitedBy ways.1 ways.2 reach entry ∧ root.lands ways.1 reach place = true := by
  constructor
  · rintro ⟨construct, reach, ⟨reached, introduces, isBound, stands, rfl⟩, lands⟩
    exact ⟨(construct, _, _), rfl, _,
      ⟨_, _, reached, introduces, ⟨_, _, _⟩, ⟨isBound, stands⟩, rfl⟩, lands⟩
  · rintro ⟨ways, rfl, reach, ⟨node, introduction, reached, introduces, name, ⟨isBound, stands⟩,
      same⟩, lands⟩
    cases same
    exact ⟨ways.1, _, .intro reached introduces isBound stands rfl, lands⟩

section

variable (isText : root.kind = .program) (shaped : root.isWellShaped = true)
    (isPlace : root.openings[id]? = some place) (found : (ofProgram root).get? id = some scope)
include isText shaped isPlace found

/-- The declarations of a scope are those of the identifiers that are declared in it. -/
theorem enumerates_sites : Enumerates (root.SitedIn place) scope.declarations := by
  have noted := View.enumerates_ofProgram (Node.isKnown_sited shaped) isText shaped isPlace
  rw [read_sited found] at noted
  refine (noted.embed (fun ways => ways.1 ++ (ways.2.1 ++ ways.2.2)) ?_).congr
    fun identifier entry => sitedIn_iff.symm
  rintro first second value other ⟨_, ⟨node, introduction, reached, introduces, _, isListed, _⟩, _⟩
    ⟨_, ⟨node', introduction', reached', introduces', _, isListed', _⟩, _⟩ same
  exact Node.ways_eq reached introduces isListed.1 reached' introduces' isListed'.1 same

theorem enumerates_declarations : Enumerates (root.DeclaredIn place)
      (scope.declarations.map fun entry => .ofSite entry.1 entry.2) := by
  refine ((enumerates_sites isText shaped isPlace found).map _).congr fun identifier declared => ?_
  constructor
  · rintro ⟨entry, isSited, rfl⟩
    exact isSited.declaredIn
  · exact Node.DeclaredIn.exists_site

end

end ScopeTable

namespace Node

variable {root node : Node} {place : Place}

theorem mem_openings_of_mem_scopesAt {outer : Place} (isOpen : outer ∈ root.scopesAt place) :
    outer ∈ root.openings := by
  obtain ⟨index, _, node, _, reached, holds⟩ := exists_of_mem_scopesAt isOpen
  refine mem_openings.2 ⟨node, reached, ?_⟩
  cases isForm : node.kind.scopeForm? with
  | none =>
    rw [holdsInScope, isForm] at holds
    cases holds
  | some form => rfl

/-- The scope of a whole text is open everywhere in it. -/
theorem nil_mem_scopesAt (isText : root.kind = .program) (reached : root.at? place = some node)
    (notRoot : place ≠ []) : [] ∈ root.scopesAt place := by
  obtain ⟨kind, span, children⟩ := root
  cases place with
  | nil => exact absurd rfl notRoot
  | cons index rest =>
    obtain ⟨child, isChild, _⟩ := at?_cons_eq_some_iff.1 reached
    have isForm : (mk kind span children).kind.scopeForm? = some .whole := by
      rw [isText]
      rfl
    have inside := (List.getElem?_eq_some_iff.1 isChild).1
    have holds := (holdsInScope_of_some isForm).2 ⟨Nat.zero_le index, inside⟩
    rw [scopesAt, isChild]
    simp [holds]

/-- Something that reaches out from a node lands in a scope. -/
theorem exists_lands (isText : root.kind = .program) (reached : root.at? place = some node)
    (notRoot : place ≠ []) (reach : Reach) :
    ∃ scope ∈ root.openings, root.lands place (some reach) scope = true := by
  have isHeld := nil_mem_scopesAt isText reached notRoot
  obtain ⟨inner, isInner⟩ : ∃ inner, root.innermost? place = some inner := by
    cases scopes : root.scopesAt place with
    | nil =>
      rw [scopes] at isHeld
      cases isHeld
    | cons inner outer => exact ⟨inner, by rw [innermost?, scopes]; rfl⟩
  obtain ⟨holder, isHolder⟩ : ∃ holder, root.holder? place = some holder := by
    rw [← Option.isSome_iff_exists, holder?, List.find?_isSome]
    refine ⟨[], isHeld, ?_⟩
    rw [at?_nil, Option.any_some, isText]
    rfl
  have innerOpens := mem_openings_of_mem_scopesAt (List.mem_of_head? isInner)
  cases reach with
  | innermost => exact ⟨inner, innerOpens, by simp [lands, isInner]⟩
  | hoisted =>
    exact ⟨holder, mem_openings_of_mem_scopesAt (List.mem_of_find?_eq_some isHolder),
      by simp [lands, isHolder]⟩
  | both => exact ⟨inner, innerOpens, by simp [lands, isInner]⟩

/-- What a construct declares lands in a scope. -/
theorem DeclaresAt.exists_lands {identifier : Place} {reach : Option Reach} {declared : Declared}
    (declares : root.DeclaresAt identifier place reach declared) (isText : root.kind = .program) :
    ∃ scope ∈ root.openings, root.lands place reach scope = true := by
  cases declares with
  | @intro node _ _ introduction _ _ reached introduces _ _ =>
    have notRoot : place ≠ [] := by
      rintro rfl
      rw [at?_nil, Option.some.injEq] at reached
      have declaring := introduces.declaresNames
      rw [← reached, isText] at declaring
      cases declaring
    cases isReach : introduction.reach with
    | some reach => exact Node.exists_lands isText reached notRoot reach
    | none =>
      refine ⟨place, mem_openings.2 ⟨node, reached, ?_⟩, by simp [lands]⟩
      cases introduces with
      | functionName => rfl
      | _ => cases isReach

/-- The parts of a function or of a `catch` stand in its scope. -/
theorem innermost?_part {child : Node} {index : Nat} (reached : root.at? place = some node)
    (isWhole : node.kind.scopeForm? = some .whole) (isChild : node.children[index]? = some child) :
    root.innermost? (place ++ [index]) = some place := by
  have inside := (List.getElem?_eq_some_iff.1 isChild).1
  have holds := (holdsInScope_of_some isWhole).2 ⟨Nat.zero_le index, inside⟩
  rw [innermost?, scopesAt_part reached isChild, if_pos holds]
  rfl

end Node

namespace ScopeTable

/--
In the table of a program, the scopes are those that the nodes of the tree open.
Each of them declares the identifiers that are declared in it, each of these
once, with the span and the kind of its declaration, and nothing else.  Whatever
a construct declares is a name of the tree, and it lands in a scope: a `var` in
the nearest scope that holds variables, a function declaration in that one and in
the innermost one, the name of another function in its own scope, and the rest in
the innermost scope, which is that of the function or of the `catch` for its
parameters.
-/
theorem declarations_land_in_their_scopes {root : Node} (isText : root.kind = .program)
    (shaped : root.isWellShaped = true) :
    (ofProgram root).scopes.length = root.openings.length ∧
    (∀ id place, root.openings[id]? = some place →
      ∃ scope, (ofProgram root).get? id = some scope ∧ scope.IsAt root place ∧
        Enumerates (root.DeclaredIn place)
          (scope.declarations.map fun entry => .ofSite entry.1 entry.2)) ∧
    (∀ identifier place reach declared, root.DeclaresAt identifier place reach declared →
      (∃ types, root.at? identifier = some (.mk (.binding declared.name) declared.span types)) ∧
        ∃ scope ∈ root.openings, root.lands place reach scope = true) ∧
    ∀ place node index child, root.at? place = some node →
      node.kind.isFunction = true ∨ node.kind = .catchClause →
      node.children[index]? = some child → root.innermost? (place ++ [index]) = some place := by
  refine ⟨length_scopes_ofProgram shaped, ?_, ?_, ?_⟩
  · intro id place isPlace
    obtain ⟨scope, found, isAt⟩ := exists_isAt shaped isPlace
    exact ⟨scope, found, isAt, enumerates_declarations isText shaped isPlace found⟩
  · intro identifier place reach declared declares
    exact ⟨declares.at?_identifier, declares.exists_lands isText⟩
  · intro place node index child reached isOwner isChild
    refine Node.innermost?_part reached ?_ isChild
    rcases isOwner with isFunction | isCatch
    · cases kind : node.kind <;> rw [kind] at isFunction <;> first | rfl | cases isFunction
    · rw [isCatch]
      rfl

/-- `function f({a,b:[c]}){{var d;let e;function g(){}}}` -/
def hoistedNames : Node :=
  .mk .program ⟨0, 51⟩ [
    .mk (.function ⟨.declaration, false, false⟩) ⟨0, 51⟩ [
      .mk (.binding "f") ⟨9, 10⟩ [],
      .mk .parameters ⟨10, 21⟩ [
        .mk (.parameter false) ⟨11, 20⟩ [
          .mk .objectPattern ⟨11, 20⟩ [
            .mk (.patternProperty true false) ⟨12, 13⟩ [.mk (.binding "a") ⟨12, 13⟩ []],
            .mk (.patternProperty false false) ⟨14, 19⟩ [
              .mk (.name "b") ⟨14, 15⟩ [],
              .mk .arrayPattern ⟨16, 19⟩ [.mk (.binding "c") ⟨17, 18⟩ []]]]]],
      .mk .functionBody ⟨21, 51⟩ [
        .mk .block ⟨22, 50⟩ [
          .mk (.variableList .var) ⟨23, 29⟩ [
            .mk .declarator ⟨27, 28⟩ [.mk (.binding "d") ⟨27, 28⟩ []]],
          .mk (.variableList .mutable) ⟨29, 35⟩ [
            .mk .declarator ⟨33, 34⟩ [.mk (.binding "e") ⟨33, 34⟩ []]],
          .mk (.function ⟨.declaration, false, false⟩) ⟨35, 49⟩ [
            .mk (.binding "g") ⟨44, 45⟩ [],
            .mk .parameters ⟨45, 47⟩ [],
            .mk .functionBody ⟨47, 49⟩ []]]]]]

theorem declarations_land_in_their_scopes_of_hoistedNames :
    hoistedNames.kind = .program ∧ hoistedNames.isWellShaped = true ∧
    hoistedNames.openings = [[], [0], [0, 2, 0], [0, 2, 0, 2]] ∧
    ∃ scope, (ofProgram hoistedNames).get? 1 = some scope ∧
      Enumerates (hoistedNames.DeclaredIn [0])
        (scope.declarations.map fun entry => .ofSite entry.1 entry.2) ∧
      (scope.declarations.map fun entry => Declared.ofSite entry.1 entry.2) = [
        ⟨"a", ⟨12, 13⟩, .parameter⟩, ⟨"c", ⟨17, 18⟩, .parameter⟩,
        ⟨"d", ⟨27, 28⟩, .variableName .var⟩, ⟨"g", ⟨44, 45⟩, .function⟩] := by
  have shaped : hoistedNames.isWellShaped = true := by decide
  have isPlace : hoistedNames.openings[1]? = some [0] := by decide
  have lands := declarations_land_in_their_scopes rfl shaped
  obtain ⟨scope, found, _, enumerates⟩ := lands.2.1 1 [0] isPlace
  refine ⟨rfl, shaped, by decide, scope, found, enumerates, ?_⟩
  have isScope : (ofProgram hoistedNames).get? 1 = some ⟨1, some 0, .function, ⟨0, 51⟩, _⟩ := rfl
  rw [isScope, Option.some.injEq] at found
  rw [← found]
  rfl

end ScopeTable

end Codemod
