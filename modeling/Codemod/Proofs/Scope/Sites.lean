import Codemod.Proofs.Scope.Classification
import Codemod.Proofs.Scope.Identifiers
import Codemod.Proofs.Scope.Notes

/-!
# What a node declares

A node declares the names of the patterns that it introduces, each with how it
stands in its pattern and with the declarator that it belongs to.  What the walk
notes at a node is this and nothing else (`ofNode_sited`), and it is known by the
ways to the pattern and through it (`isKnown_sited`).
-/

namespace Codemod

open Trace ScopeTable

/-- The name and the site that a note declares, if it is a declaration. -/
def Note.sited? : Note → Option (String × Site)
  | declaration name site => some (name, site)
  | _ => none

/-- The view of the declarations. -/
def ScopeTable.View.sited : View (String × Site) :=
  View.notes.filterMap Note.sited?

namespace Node

variable {kind : Kind} {span : Span} {children : List Node} {root node pattern : Node}

/-- What is known of the declarator of the pattern to which a way leads. -/
def declaratorAt? : Node → Place → Option DeclaratorInfo
  | mk (.variableList _) _ declarators, index :: _ => declarators[index]?.map fun declarator =>
    ⟨declarator.span, declarator.declaratorValue?.bind chain?⟩
  | _, _ => none

/-- The patterns whose names a node declares, with their declarators. -/
def sitedIntroductions : Node → List (Introduction × Option DeclaratorInfo)
  | mk (.variableList keyword) _ children => children.filterMap fun child =>
    (declaratorPattern? child).map fun pattern =>
      (⟨some (if keyword = .var then .hoisted else .innermost), .variableName keyword, pattern⟩,
        some ⟨child.span, child.declaratorValue?.bind chain?⟩)
  | node => node.introductions.map (·, none)

/-- How a name of the pattern of an introduction is declared. -/
def siteOf (entry : Introduction × Option DeclaratorInfo) (name : PatternName) :
    Option Reach × String × Site :=
  (entry.1.reach, name.name, ⟨name.span, entry.1.kind, name.place, entry.2⟩)

/-- What the pattern of an introduction declares. -/
def listed (entry : Introduction × Option DeclaratorInfo) : List (Option Reach × String × Site) :=
  entry.1.pattern.patternNames.map (siteOf entry)

/-- What steps declare. -/
def declaredBy (steps : List Step) : List (Option Reach × String × Site) :=
  (steps.flatMap View.sited.gives).map fun entry => (some entry.1, entry.2)

theorem declaredBy_flatMap {α : Type} (items : List α) (steps : α → List Step) :
    declaredBy (items.flatMap steps) = items.flatMap fun item => declaredBy (steps item) := by
  rw [declaredBy, List.flatMap_assoc, List.map_flatMap]
  rfl

theorem declaredBy_declarePattern (reach : Reach) (kind : DeclarationKind)
    (declarator : Option DeclaratorInfo) (pattern : Node) :
    declaredBy (declarePattern reach kind declarator pattern) =
      listed (⟨some reach, kind, pattern⟩, declarator) := by
  rw [listed, declarePattern, declaredBy, List.flatMap_map, List.map_flatMap]
  exact List.map_eq_flatMap.symm

theorem exists_of_isBinding (isName : node.isBinding = true) :
    ∃ name span types, node = mk (.binding name) span types := by
  obtain ⟨kind, span, types⟩ := node
  cases kind with
  | binding name => exact ⟨name, span, types, rfl⟩
  | _ => cases isName

theorem declaredBy_declareName (isName : node.isBinding = true) (reach : Reach)
    (kind : DeclarationKind) :
    declaredBy (declareName reach kind node) = listed (⟨some reach, kind, node⟩, none) := by
  obtain ⟨name, span, types, rfl⟩ := exists_of_isBinding isName
  rfl

/-- What selected parts declare is what they introduce. -/
theorem declaredBy_selected {select : Node → Option Node} {steps : Node → List Step}
    {reach : Option Reach} {kind : DeclarationKind}
    (each : ∀ child ∈ children, declaredBy (steps child) =
      (select child).toList.flatMap fun pattern => listed (⟨reach, kind, pattern⟩, none)) :
    declaredBy (children.flatMap steps) =
      (((children.filterMap select).map (⟨reach, kind, ·⟩)).map (·, none)).flatMap listed := by
  rw [declaredBy_flatMap, List.filterMap_eq_flatMap_toList, List.flatMap_map, List.flatMap_map,
    List.flatMap_assoc]
  exact List.flatMap_congr each

theorem declaredBy_declareVariables (keyword : VariableKeyword) :
    declaredBy (declareVariables keyword children) =
      (mk (.variableList keyword) span children).sitedIntroductions.flatMap listed := by
  have sameReach : (if keyword == .var then Reach.hoisted else Reach.innermost) =
      if keyword = .var then Reach.hoisted else Reach.innermost := by
    cases keyword <;> rfl
  rw [declareVariables, sameReach, declaredBy_flatMap, sitedIntroductions,
    List.filterMap_eq_flatMap_toList, List.flatMap_assoc]
  refine List.flatMap_congr fun child _ => ?_
  split
  · rw [declaredBy_declarePattern]
    exact (List.append_nil _).symm
  · next notDeclarator =>
    have noPattern : declaratorPattern? child = none := by
      refine Option.eq_none_iff_forall_ne_some.2 fun pattern isPattern => ?_
      obtain ⟨_, _, rfl⟩ := declaratorPattern?_eq_some_iff.1 isPattern
      exact notDeclarator _ _ _ rfl
    rw [noPattern]
    rfl

theorem declaredBy_declareParameters : declaredBy (declareParameters children) =
      ((mk .parameters span children).introductions.map (·, none)).flatMap listed := by
  rw [declareParameters, List.filterMap_eq_flatMap_toList, List.flatMap_assoc]
  refine declaredBy_selected fun child _ => ?_
  rw [declaredBy_flatMap]
  exact List.flatMap_congr fun pattern _ => declaredBy_declarePattern _ _ _ _

theorem declaredBy_catchParameter :
    declaredBy (children.flatMap (declarePattern .innermost .catchParameter none)) =
      ((mk .catchParameter span children).introductions.map (·, none)).flatMap listed := by
  rw [declaredBy_flatMap, introductions, List.flatMap_map, List.flatMap_map]
  exact List.flatMap_congr fun child _ => declaredBy_declarePattern _ _ _ _

theorem declareName_eq_nil (notName : node.isBinding = false) (reach : Reach)
    (kind : DeclarationKind) : declareName reach kind node = [] := by
  unfold isBinding at notName
  unfold declareName
  split
  · next isName =>
    rw [isName] at notName
    cases notName
  · rfl

/-- A part of an import declares the name that it ends with. -/
theorem declaredBy_imported (names : List Node) :
    declaredBy (names.getLast?.toList.flatMap (declareName .innermost .imported)) =
      (names.getLast?.filter isBinding).toList.flatMap fun name =>
        listed (⟨some .innermost, .imported, name⟩, none) := by
  cases names.getLast? with
  | none => rfl
  | some name =>
    rw [Option.toList_some, List.flatMap_singleton]
    cases isName : name.isBinding with
    | true =>
      rw [declaredBy_declareName isName, Option.filter_some, if_pos isName]
      exact (List.append_nil _).symm
    | false =>
      rw [declareName_eq_nil isName, Option.filter_some, if_neg (by simp [isName])]
      rfl

theorem declaredBy_declareImports (source : String) (isTyped : Bool) :
    declaredBy (declareImports children) =
      ((mk (.importDeclaration source isTyped) span children).introductions.map
        (·, none)).flatMap listed := by
  rw [declareImports]
  refine declaredBy_selected fun child _ => ?_
  obtain ⟨kind, place, names⟩ := child
  have isImported := declaredBy_imported names
  cases isImport : kind.isImportPart with
  | true =>
    rw [importedBinding?, kind_mk, if_pos isImport, children_mk, ← isImported]
    congr 1
    cases names.getLast? with
    | none => cases kind <;> rfl
    | some name => cases kind <;> first | (cases isImport; done) | exact (List.append_nil _).symm
  | false =>
    rw [importedBinding?, kind_mk, if_neg (by simp [isImport])]
    cases kind <;> first | (cases isImport; done) | rfl

theorem listed_given (reach : Option Reach) (kind : DeclarationKind) (children : List Node) :
    (((children.find? isBinding).toList.map (⟨reach, kind, ·⟩)).map (·, none)).flatMap listed =
      (givenName? children).toList.map fun entry =>
        (reach, entry.1, ⟨entry.2, kind, .direct, none⟩) := by
  induction children with
  | nil => rfl
  | cons child rest ih =>
    obtain ⟨kind, span, types⟩ := child
    cases kind with
    | binding name => rfl
    | _ => exact ih

theorem declaredBy_declareGiven (reach : Reach) (kind : DeclarationKind) (children : List Node) :
    declaredBy (declareGiven reach kind children) =
      (((children.find? isBinding).toList.map (⟨some reach, kind, ·⟩)).map (·, none)).flatMap
        listed := by
  rw [listed_given, declareGiven]
  cases givenName? children <;> rfl

/-- Only the scope of a function has a name declared when it opens. -/
theorem born_eq_nil (notFunction : ∀ form span children, node ≠ mk (.function form) span children) :
    node.opening?.toList.flatMap View.sited.born = [] := by
  unfold opening?
  split
  case h_3 => exact absurd rfl (notFunction _ _ _)
  case h_5 kind _ _ _ _ _ _ => cases kind.scopeForm? <;> rfl
  all_goals rfl

theorem born_function (form : FunctionForm) :
    (mk (.function form) span children).opening?.toList.flatMap View.sited.born =
      (innerName? form children).toList.map fun entry =>
        (entry.1, ⟨entry.2, .functionName, .direct, none⟩) := by
  rw [opening?, Option.toList_some, List.flatMap_singleton]
  cases innerName? form children <;> rfl

/-- A node that is none of those that declare names declares none. -/
theorem declaredBy_notes (notDeclaring : node.kind.declaresNames = false) (access : Access) :
    declaredBy (node.notes access) = [] := by
  unfold notes
  split
  case h_1 => rfl
  case h_2 => cases chain? _ <;> rfl
  case h_3 => split <;> rfl
  case h_10 => rfl
  all_goals cases notDeclaring

theorem ofNode_of_notFunction
    (notFunction : ∀ form span children, node ≠ mk (.function form) span children)
    (access : Access) : View.sited.ofNode node access = declaredBy (node.notes access) := by
  rw [View.ofNode, born_eq_nil notFunction, List.map_nil, List.append_nil]
  rfl

theorem introductions_eq_nil (notDeclaring : node.kind.declaresNames = false) :
    node.introductions = [] := by
  unfold introductions
  split
  case h_7 => rfl
  all_goals cases notDeclaring

theorem ofNode_function (form : FunctionForm) (access : Access) :
    View.sited.ofNode (mk (.function form) span children) access =
      ((mk (.function form) span children).introductions.map (·, none)).flatMap listed := by
  rw [View.ofNode, born_function, introductions, innerName?]
  change declaredBy (if isDeclared form children then _ else _) ++ _ = _
  cases isDeclared form children with
  | true =>
    rw [if_pos rfl, declaredBy_declareGiven, if_pos rfl]
    exact List.append_nil _
  | false =>
    have given := listed_given none .functionName children
    rw [if_neg Bool.false_ne_true, if_neg Bool.false_ne_true, List.map_map]
    exact given.symm

theorem sitedIntroductions_eq (notVariables : ∀ keyword, node.kind ≠ .variableList keyword) :
    node.sitedIntroductions = node.introductions.map (·, none) := by
  unfold sitedIntroductions
  split
  · exact absurd rfl (notVariables _)
  · rfl

/-- What a node declares is what it introduces. -/
theorem ofNode_sited (node : Node) (access : Access) :
    View.sited.ofNode node access = node.sitedIntroductions.flatMap listed := by
  cases isDeclaring : node.kind.declaresNames with
  | false =>
    have notVariables : ∀ keyword, node.kind ≠ .variableList keyword := by
      intro keyword isVariables
      rw [isVariables] at isDeclaring
      cases isDeclaring
    rw [sitedIntroductions_eq notVariables, introductions_eq_nil isDeclaring]
    refine (ofNode_of_notFunction ?_ access).trans (declaredBy_notes isDeclaring access)
    rintro form span children rfl
    cases isDeclaring
  | true =>
    obtain ⟨kind, span, children⟩ := node
    cases kind with
    | variableList keyword =>
      exact (ofNode_of_notFunction (by rintro _ _ _ ⟨⟩) access).trans
        (declaredBy_declareVariables keyword)
    | parameters =>
      exact (ofNode_of_notFunction (by rintro _ _ _ ⟨⟩) access).trans
        declaredBy_declareParameters
    | catchParameter =>
      exact (ofNode_of_notFunction (by rintro _ _ _ ⟨⟩) access).trans declaredBy_catchParameter
    | importDeclaration source isTyped =>
      exact (ofNode_of_notFunction (by rintro _ _ _ ⟨⟩) access).trans
        (declaredBy_declareImports source isTyped)
    | classDefinition isDeclaration =>
      refine (ofNode_of_notFunction (by rintro _ _ _ ⟨⟩) access).trans ?_
      rw [notes, declaredBy, List.flatMap_append, List.map_append]
      exact (List.append_nil _).trans (declaredBy_declareGiven _ _ _)
    | function form => exact ofNode_function form access
    | _ => cases isDeclaring

/-! ## What a node declares is known by ways -/

theorem enumerates_sitedIntroductions (node : Node) :
    Enumerates (fun path entry => node.Introduces path entry.1 ∧ node.declaratorAt? path = entry.2)
      node.sitedIntroductions := by
  unfold sitedIntroductions
  split
  · next keyword span children =>
    refine (((Enumerates.positions children).filterMap _).embed (fun index => [index, 0])
      fun _ _ _ _ _ _ same => by simpa using same).congr fun path entry => ?_
    simp only [Option.map_eq_some_iff, declaratorPattern?_eq_some_iff]
    constructor
    · rintro ⟨index, rfl, child, isChild, pattern, ⟨place, rest, rfl⟩, rfl⟩
      exact ⟨.declarator isChild, by simp [declaratorAt?, isChild]⟩
    · obtain ⟨introduction, info⟩ := entry
      rintro ⟨⟨isDeclarator⟩, rfl⟩
      exact ⟨_, rfl, _, isDeclarator, _, ⟨_, _, rfl⟩, by simp [declaratorAt?, isDeclarator]⟩
  · next notVariables =>
    refine ((enumerates_introductions node).map (·, none)).congr fun path entry => ?_
    have noDeclarator : node.declaratorAt? path = none := by
      unfold declaratorAt?
      split
      · exact absurd rfl (notVariables _ _ _)
      · rfl
    rw [noDeclarator]
    constructor
    · rintro ⟨introduction, introduces, rfl⟩
      exact ⟨introduces, rfl⟩
    · rintro ⟨introduces, isNone⟩
      exact ⟨entry.1, introduces, Prod.ext rfl isNone⟩

/-- The pattern of an introduction is no parameter that has patterns of its own. -/
theorem Introduces.isParameter_eq {path : Place} {introduction : Introduction}
    (introduces : node.Introduces path introduction) (shaped : node.isWellShaped = true) :
    introduction.pattern.kind.isParameter = false := by
  have ofPart {kind : Kind} {span : Span} {children : List Node} {pattern : Node}
      (shaped : (mk kind span children).isWellShaped = true) (notParameters : kind ≠ .parameters)
      (notCatch : kind ≠ .catchClause) (member : pattern ∈ children) :
      pattern.kind.isParameter = false :=
    isParameter_part (isWellShaped_mk.1 shaped).1 notParameters notCatch pattern member
  have ofName {name : Node} (isName : name.isBinding = true) : name.kind.isParameter = false := by
    obtain ⟨_, _, _, rfl⟩ := exists_of_isBinding isName
    rfl
  have ofFirst {children : List Node} {index : Nat} {name : Node}
      (isFirst : children.findIdx? isBinding = some index)
      (isName : children[index]? = some name) : name.kind.isParameter = false := by
    obtain ⟨inside, isBinding, _⟩ := List.findIdx?_eq_some_iff_getElem.1 isFirst
    rw [List.getElem?_eq_getElem inside, Option.some.injEq] at isName
    exact ofName (isName ▸ isBinding)
  cases introduces with
  | declarator isDeclarator =>
    have part := (isWellShaped_mk.1 shaped).2 _ (List.mem_of_getElem? isDeclarator)
    exact ofPart part (by rintro ⟨⟩) (by rintro ⟨⟩) List.mem_cons_self
  | parameter isParameter =>
    have part := (isWellShaped_mk.1 shaped).2 _ (List.mem_of_getElem? isParameter)
    exact ofPart part (by rintro ⟨⟩) (by rintro ⟨⟩) (by simp)
  | restParameter isParameter =>
    have part := (isWellShaped_mk.1 shaped).2 _ (List.mem_of_getElem? isParameter)
    exact ofPart part (by rintro ⟨⟩) (by rintro ⟨⟩) List.mem_cons_self
  | catchParameter isPattern =>
    exact ofPart shaped (by rintro ⟨⟩) (by rintro ⟨⟩) (List.mem_of_getElem? isPattern)
  | imported _ _ isName => exact ofName isName
  | classDefinition isFirst isName => exact ofFirst isFirst isName
  | function _ isFirst isName => exact ofFirst isFirst isName
  | functionName _ isFirst isName => exact ofFirst isFirst isName

/-- What the node at a place declares, by the ways to a pattern and through it. -/
def sitedBy (root : Node) (place : Place) (ways : Place × Place) (reach : Option Reach)
    (entry : String × Site) : Prop :=
  ∃ node introduction, root.at? place = some node ∧ node.Introduces ways.1 introduction ∧
    ∃ name, introduction.pattern.classified introduction.pattern.Marks ways.2 name ∧
      siteOf (introduction, node.declaratorAt? ways.1) name = (reach, entry)

theorem isKnown_sited (shaped : root.isWellShaped = true) :
    View.sited.IsKnown root root.sitedBy where
  isNode := fun ⟨node, _, reached, _⟩ => ⟨node, reached⟩
  enumerates := by
    intro place node reached
    have nodeShaped := isWellShaped_at? shaped reached
    have introductions := enumerates_sitedIntroductions node
    have each : ∀ entry ∈ node.sitedIntroductions, Enumerates (fun path site => ∃ name,
        entry.1.pattern.classified entry.1.pattern.Marks path name ∧ siteOf entry name = site)
          (listed entry) := by
      intro entry member
      obtain ⟨path, introduces, _⟩ := introductions.mem_iff.1 member
      exact (lists_patternNames (isWellShaped_at? nodeShaped introduces.at?_eq)
        (introduces.isParameter_eq nodeShaped)).enumerates.map _
    rw [ofNode_sited]
    refine (introductions.flatMap each).congr fun ways entry => ?_
    constructor
    · rintro ⟨⟨introduction, info⟩, ⟨introduces, rfl⟩, name, isListed, same⟩
      exact ⟨node, introduction, reached, introduces, name, isListed, same⟩
    · rintro ⟨other, introduction, isOther, introduces, name, isListed, same⟩
      rw [reached, Option.some.injEq] at isOther
      subst isOther
      exact ⟨(introduction, _), ⟨introduces, rfl⟩, name, isListed, same⟩

end Node

end Codemod
