import Codemod.Proofs.Tree.Occurrence
import Codemod.Transform.Context

/-!
# What a survey finds

A survey of a node is put together from what the node is itself and from the
surveys of some of its parts (`assemble_iff`).  So whatever is found in several
surveys together exactly if it is found in one of them, is found in the survey of
a node exactly if a path leads to it that the survey follows (`survey_iff`).

The survey sees of a class only its parent and its body, and of the parent only
the expression (`looksInto`).  What stands in a function or in the body of a class
does not count as a use of the function around (`hides`).
-/

namespace Codemod

/--
Whether a node of this kind means something else in another function: `this`,
`super`, the arguments and the construction target.
-/
def Kind.usesFunction : Kind → Bool
  | thisExpression => true
  | superExpression => true
  | metaProperty "new" "target" => true
  | reference "arguments" => true
  | _ => false

namespace Context

/-- Whether the survey of a node of this kind looks into one of its parts. -/
def looksInto (kind : Kind) (index : Nat) (part : Node) : Bool :=
  match kind with
  | .classDefinition _ => part.kind == .heritage || part.kind == .classBody
  | .heritage => index == 0
  | .metaProperty _ _ => false
  | _ => true

/-- Whether the function around a node of this kind has nothing to do with a part of it. -/
def hides (kind : Kind) (part : Node) : Bool :=
  match kind with
  | .function _ => true
  | .classDefinition _ => part.kind == .classBody
  | _ => false

/-- Whether a survey finds in a node what it finds in a part of it. -/
def follows (isSeenNested : Bool) (kind : Kind) (index : Nat) (part : Node) : Bool :=
  looksInto kind index part && (isSeenNested || !hides kind part)

/-- Whether a survey gets to a part of a node.  It takes uses of the function for leaves. -/
def passes (isSeenNested : Bool) (kind : Kind) (index : Nat) (part : Node) : Bool :=
  !kind.usesFunction && follows isSeenNested kind index part

/-- What a node of this kind adds to its survey by itself. -/
def ownSurvey (kind : Kind) (span : Span) : Survey :=
  match kind with
  | .thisExpression => .thisUse
  | .superExpression => .contextUse
  | .metaProperty "new" "target" => .contextUse
  | .reference "arguments" => .contextUse
  | .markupElement => { Survey.empty with hasMarkup := true }
  | .markupFragment => { Survey.empty with hasMarkup := true }
  | .property .shorthand _ => { Survey.empty with shorthands := [span] }
  | .stringLiteral _ => { Survey.empty with literals := [span] }
  | .template => { Survey.empty with literals := [span] }
  | _ => .empty

namespace Survey

theorem nested_concat (surveys : List Survey) :
    (concat surveys).nested = concat (surveys.map nested) := by
  induction surveys with
  | nil => rfl
  | cons first rest ih =>
    calc (concat (first :: rest)).nested = first.nested.append (concat rest).nested := rfl
      _ = first.nested.append (concat (rest.map nested)) := by rw [ih]

end Survey

/--
Something that surveys have together exactly if one of them has it.  It may be
lost from sight in functions and in the bodies of classes.
-/
structure IsFinding (found : Survey → Prop) (isSeenNested : Bool) : Prop where
  empty : ¬ found .empty
  append : ∀ first second : Survey, found (first.append second) ↔ found first ∨ found second
  nested : ∀ survey : Survey, found survey.nested ↔ isSeenNested = true ∧ found survey

variable {kind : Kind} {span : Span} {children : List (Node × Survey)}
  {found : Survey → Prop} {isSeenNested : Bool}

namespace IsFinding

section

variable (finding : IsFinding found isSeenNested)
include finding

theorem concat (surveys : List Survey) :
    found (Survey.concat surveys) ↔ ∃ survey ∈ surveys, found survey := by
  induction surveys with
  | nil =>
    have nothing : ¬ found (Survey.concat []) := finding.empty
    simpa using nothing
  | cons first rest ih =>
    change found (first.append (Survey.concat rest)) ↔ _
    rw [finding.append, ih]
    simp

/-- What is found in all parts of a node. -/
theorem parts (see : Survey → Survey) :
    found (Survey.concat (children.map fun child => see child.2)) ↔
      ∃ (index : Nat) (child : Node × Survey), children[index]? = some child ∧
        found (see child.2) := by
  rw [finding.concat]
  constructor
  · rintro ⟨survey, member, isFound⟩
    rcases List.mem_map.mp member with ⟨child, isChild, rfl⟩
    rcases List.getElem?_of_mem isChild with ⟨index, isAt⟩
    exact ⟨index, child, isAt, isFound⟩
  · rintro ⟨index, child, isAt, isFound⟩
    exact ⟨_, List.mem_map_of_mem (List.mem_of_getElem? isAt), isFound⟩

theorem first : found (Survey.concat ((children.take 1).map (·.2))) ↔
      ∃ (index : Nat) (child : Node × Survey), children[index]? = some child ∧
        index = 0 ∧ found child.2 := by
  rw [finding.concat]
  cases children with
  | nil => simp
  | cons first rest =>
    constructor
    · intro isFound
      exact ⟨0, first, rfl, rfl, by simpa using isFound⟩
    · rintro ⟨index, child, isAt, rfl, isFound⟩
      cases isAt
      simpa using isFound

theorem classParts : found (Survey.concat (classParts children)) ↔
      ∃ (index : Nat) (child : Node × Survey), children[index]? = some child ∧
        ((child.1.kind = .heritage ∧ found child.2) ∨
          (child.1.kind = .classBody ∧ found child.2.nested)) := by
  rw [finding.concat]
  constructor
  · rintro ⟨survey, member, isFound⟩
    rcases List.mem_filterMap.mp member with ⟨child, isChild, counted⟩
    rcases List.getElem?_of_mem isChild with ⟨index, isAt⟩
    refine ⟨index, child, isAt, ?_⟩
    split at counted
    · next isHeritage =>
      cases counted
      exact Or.inl ⟨isHeritage, isFound⟩
    · next isBody =>
      cases counted
      exact Or.inr ⟨isBody, isFound⟩
    · cases counted
  · rintro ⟨index, child, isAt, ⟨isHeritage, isFound⟩ | ⟨isBody, isFound⟩⟩
    · refine ⟨child.2, List.mem_filterMap.mpr ⟨child, List.mem_of_getElem? isAt, ?_⟩, isFound⟩
      rw [isHeritage]
    · refine ⟨child.2.nested, List.mem_filterMap.mpr ⟨child, List.mem_of_getElem? isAt, ?_⟩,
        isFound⟩
      rw [isBody]

theorem onTop (kind : Kind) (span : Span)
    (all : ∀ index part, passes isSeenNested kind index part = true) :
    found ((ownSurvey kind span).append (Survey.concat (children.map (·.2)))) ↔
      found (ownSurvey kind span) ∨ ∃ (index : Nat) (child : Node × Survey),
        children[index]? = some child ∧ passes isSeenNested kind index child.1 = true ∧
          found child.2 := by
  rw [finding.append]
  refine or_congr_right ((finding.parts id).trans ?_)
  simp only [all, id_eq, true_and]

/-- A survey finds something in a node itself or in a part that it looks into. -/
theorem assemble_iff : found (assemble kind span children) ↔ found (ownSurvey kind span) ∨
        ∃ (index : Nat) (child : Node × Survey), children[index]? = some child ∧
          passes isSeenNested kind index child.1 = true ∧ found child.2 := by
  have nothing := finding.empty
  -- The cases are those of `assemble`, from `this` to the kinds without a rule.
  unfold assemble
  split
  · simp [ownSurvey, passes, Kind.usesFunction]
  · simp [ownSurvey, passes, Kind.usesFunction]
  · simp [ownSurvey, passes, Kind.usesFunction]
  · next target property notTarget =>
    have isNothing : ownSurvey (.metaProperty target property) span = .empty := by
      unfold ownSurvey
      split <;> simp_all
    simp [isNothing, nothing, passes, follows, looksInto]
  · simp [ownSurvey, passes, Kind.usesFunction]
  · rw [Survey.nested_concat, List.map_map]
    refine (finding.parts Survey.nested).trans ?_
    simp [ownSurvey, nothing, passes, follows, Kind.usesFunction, looksInto, hides, finding.nested]
  · refine finding.classParts.trans ?_
    simp only [ownSurvey, nothing, false_or]
    refine exists_congr fun index => exists_congr fun child => and_congr_right fun _ => ?_
    simp only [passes, follows, Kind.usesFunction, looksInto, hides, finding.nested]
    rcases Decidable.em (child.1.kind = .classBody) with isBody | notBody
    · simp [isBody]
    · simp [notBody]
  · simpa [ownSurvey, nothing, passes, follows, Kind.usesFunction, looksInto, hides]
      using finding.first
  · exact finding.onTop .markupElement span fun _ _ => by
      simp [passes, follows, Kind.usesFunction, looksInto, hides]
  · exact finding.onTop .markupFragment span fun _ _ => by
      simp [passes, follows, Kind.usesFunction, looksInto, hides]
  · exact finding.onTop (.property .shorthand _) span fun _ _ => by
      simp [passes, follows, Kind.usesFunction, looksInto, hides]
  · exact finding.onTop (.stringLiteral _) span fun _ _ => by
      simp [passes, follows, Kind.usesFunction, looksInto, hides]
  · exact finding.onTop .template span fun _ _ => by
      simp [passes, follows, Kind.usesFunction, looksInto, hides]
  · have isNothing : ownSurvey kind span = .empty := by
      unfold ownSurvey
      split <;> simp_all
    have everywhere : ∀ index part, passes isSeenNested kind index part = true := by
      intro index part
      have notUse : kind.usesFunction = false := by
        unfold Kind.usesFunction
        split <;> simp_all
      have looked : looksInto kind index part = true := by
        unfold looksInto
        split <;> simp_all
      have shown : hides kind part = false := by
        unfold hides
        split <;> simp_all
      simp [passes, follows, notUse, looked, shown]
    have onTop : Survey.concat (children.map (·.2)) =
        (ownSurvey kind span).append (Survey.concat (children.map (·.2))) := by
      rw [isNothing]
      rfl
    rw [onTop]
    exact finding.onTop kind span everywhere

end

end IsFinding

end Context

namespace Node

/-- Whether a path leads from node to node through parts that are entered. -/
def leadsThrough (enters : Kind → Nat → Node → Bool) : Node → List Nat → Bool
  | _, [] => true
  | mk kind _ children, index :: path =>
    match children[index]? with
    | some child => enters kind index child && child.leadsThrough enters path
    | none => false

variable {kind : Kind} {span : Span} {children : List Node} {index : Nat} {path : List Nat}
  {enters : Kind → Nat → Node → Bool} {node child word : Node}

@[simp]
theorem leadsThrough_nil (node : Node) : node.leadsThrough enters [] = true := by
  cases node
  rfl

theorem leadsThrough_cons_iff (isChild : children[index]? = some child) :
    (mk kind span children).leadsThrough enters (index :: path) = true ↔
      enters kind index child = true ∧ child.leadsThrough enters path = true := by
  rw [leadsThrough, isChild]
  exact Bool.and_eq_true_iff

/-- A path that is not followed leads through a part that is not entered. -/
theorem exists_of_leadsThrough_eq_false (reached : node.at? path = some word)
    (lost : node.leadsThrough enters path = false) :
    ∃ outer index inner kind span children part,
      path = outer ++ index :: inner ∧ node.at? outer = some (mk kind span children) ∧
        node.leadsThrough enters outer = true ∧ children[index]? = some part ∧
          enters kind index part = false := by
  induction path generalizing node with
  | nil =>
    rw [leadsThrough_nil] at lost
    cases lost
  | cons index path ih =>
    obtain ⟨kind, span, children⟩ := node
    obtain ⟨child, isChild, below⟩ := at?_cons_eq_some_iff.mp reached
    cases isEntered : enters kind index child with
    | false =>
      exact ⟨[], index, path, kind, span, children, child, rfl, at?_nil _,
        leadsThrough_nil _, isChild, isEntered⟩
    | true =>
      have lostBelow : child.leadsThrough enters path = false := by
        rw [← Bool.not_eq_true] at lost ⊢
        rw [leadsThrough_cons_iff isChild] at lost
        exact fun follows => lost ⟨isEntered, follows⟩
      obtain ⟨outer, at_, inner, kind', span', children', part, rfl, stands, follows, isPart,
        passed⟩ := ih below lostBelow
      refine ⟨index :: outer, at_, inner, kind', span', children', part, rfl, ?_, ?_, isPart,
        passed⟩
      · exact at?_cons_eq_some_iff.mpr ⟨child, isChild, stands⟩
      · exact (leadsThrough_cons_iff isChild).mpr ⟨isEntered, follows⟩

/-- A path through a part that is not entered is not followed. -/
theorem leadsThrough_eq_false {outer inner : List Nat}
    (stands : node.at? outer = some (mk kind span children))
    (isPart : children[index]? = some child) (passed : enters kind index child = false) :
    node.leadsThrough enters (outer ++ index :: inner) = false := by
  induction outer generalizing node with
  | nil =>
    rw [at?_nil, Option.some.injEq] at stands
    rw [stands, List.nil_append, leadsThrough, isPart]
    exact Bool.and_eq_false_iff.mpr (Or.inl passed)
  | cons first outer ih =>
    obtain ⟨kind', span', children'⟩ := node
    obtain ⟨middle, isMiddle, below⟩ := at?_cons_eq_some_iff.mp stands
    rw [List.cons_append, leadsThrough, isMiddle]
    exact Bool.and_eq_false_iff.mpr (Or.inr (ih below))

theorem survey_mk (kind : Kind) (span : Span) (children : List Node) :
    (mk kind span children).survey = Context.assemble kind span
        (children.map fun child => (child, child.survey)) := by
  rw [survey, fold_mk]

end Node

namespace Context

open Node

variable {found : Survey → Prop} {isSeenNested : Bool}

/-- A survey finds something exactly if it comes to a node that is of that kind. -/
theorem IsFinding.survey_iff (finding : IsFinding found isSeenNested) (node : Node) :
    found node.survey ↔ ∃ path word, node.at? path = some word ∧
      found (ownSurvey word.kind word.span) ∧
        node.leadsThrough (passes isSeenNested) path = true := by
  induction node using Node.induction with
  | step kind span children ih =>
    rw [survey_mk, finding.assemble_iff]
    constructor
    · rintro (own | ⟨index, part, isAt, passed, isFound⟩)
      · exact ⟨[], _, at?_nil _, own, leadsThrough_nil _⟩
      · rw [List.getElem?_map, Option.map_eq_some_iff] at isAt
        obtain ⟨child, isChild, rfl⟩ := isAt
        obtain ⟨path, word, reached, own, follows⟩ :=
          (ih child (List.mem_of_getElem? isChild)).mp isFound
        refine ⟨index :: path, word, ?_, own, ?_⟩
        · exact at?_cons_eq_some_iff.mpr ⟨child, isChild, reached⟩
        · exact (leadsThrough_cons_iff isChild).mpr ⟨passed, follows⟩
    · rintro ⟨path, word, reached, own, follows⟩
      cases path with
      | nil =>
        rw [at?_nil, Option.some.injEq] at reached
        subst reached
        exact Or.inl own
      | cons index path =>
        obtain ⟨child, isChild, below⟩ := at?_cons_eq_some_iff.mp reached
        obtain ⟨passed, follows⟩ := (leadsThrough_cons_iff isChild).mp follows
        refine Or.inr ⟨index, (child, child.survey), ?_, passed, ?_⟩
        · rw [List.getElem?_map, isChild]
          rfl
        · exact (ih child (List.mem_of_getElem? isChild)).mpr
            ⟨path, word, below, own, follows⟩

/-! ## Uses of the function around -/

namespace Survey

/-- Whether any use of the function around was found. -/
def usesFunction (survey : Survey) : Bool :=
  survey.hasThis || survey.hasContext

/-- Whether a use was found that is of the function around and of no other. -/
def usesOwnFunction (survey : Survey) : Bool :=
  survey.hasOwnThis || survey.hasOwnContext

end Survey

theorem isFinding_usesFunction : IsFinding (fun survey => survey.usesFunction = true) true where
  empty := by decide
  append := by
    intro first second
    simp only [Survey.usesFunction, Survey.append, Bool.or_eq_true]
    exact or_or_or_comm
  nested := by simp [Survey.usesFunction, Survey.nested]

theorem isFinding_usesOwnFunction :
    IsFinding (fun survey => survey.usesOwnFunction = true) false where
  empty := by decide
  append := by
    intro first second
    simp only [Survey.usesOwnFunction, Survey.append, Bool.or_eq_true]
    exact or_or_or_comm
  nested := by simp [Survey.usesOwnFunction, Survey.nested]

theorem usesFunction_ownSurvey (kind : Kind) (span : Span) :
    (ownSurvey kind span).usesFunction = kind.usesFunction ∧
      (ownSurvey kind span).usesOwnFunction = kind.usesFunction := by
  unfold ownSurvey
  split
  case h_10 =>
    have notUse : kind.usesFunction = false := by
      unfold Kind.usesFunction
      split <;> simp_all
    rw [notUse]
    exact ⟨rfl, rfl⟩
  all_goals exact ⟨rfl, rfl⟩

end Context

namespace Node

variable {enters : Kind → Nat → Node → Bool} {node word : Node} {path : List Nat}

/-- Where a path leads to a use, it is a use or leads through one. -/
theorem exists_use_of_leadsThrough (reached : node.at? path = some word)
    (isUse : word.kind.usesFunction = true) (leads : node.leadsThrough enters path = true) :
    ∃ path word, node.at? path = some word ∧ word.kind.usesFunction = true ∧
      node.leadsThrough (fun kind index part => !kind.usesFunction && enters kind index part)
        path = true := by
  induction path generalizing node with
  | nil => exact ⟨[], word, reached, isUse, leadsThrough_nil _⟩
  | cons index path ih =>
    obtain ⟨kind, span, children⟩ := node
    obtain ⟨child, isChild, below⟩ := at?_cons_eq_some_iff.mp reached
    obtain ⟨entered, leads⟩ := (leadsThrough_cons_iff isChild).mp leads
    cases own : kind.usesFunction with
    | true => exact ⟨[], _, at?_nil _, own, leadsThrough_nil _⟩
    | false =>
      obtain ⟨path, word, reached, isUse, leads⟩ := ih below leads
      refine ⟨index :: path, word, at?_cons_eq_some_iff.mpr ⟨child, isChild, reached⟩,
        isUse, (leadsThrough_cons_iff isChild).mpr ⟨?_, leads⟩⟩
      rw [own, entered]
      rfl

theorem leadsThrough_mono {other : Kind → Nat → Node → Bool}
    (fewer : ∀ kind index part, enters kind index part = true → other kind index part = true)
    (leads : node.leadsThrough enters path = true) : node.leadsThrough other path = true := by
  induction path generalizing node with
  | nil => exact leadsThrough_nil _
  | cons index path ih =>
    obtain ⟨kind, span, children⟩ := node
    cases isChild : children[index]? with
    | none =>
      rw [leadsThrough, isChild] at leads
      cases leads
    | some child =>
      obtain ⟨entered, leads⟩ := (leadsThrough_cons_iff isChild).mp leads
      exact (leadsThrough_cons_iff isChild).mpr ⟨fewer _ _ _ entered, ih leads⟩

end Node

namespace Context

open Node

variable {found : Survey → Prop} {isSeenNested : Bool}

/-- A survey finds a use of the function exactly if it follows a path to one. -/
theorem IsFinding.use_iff (finding : IsFinding found isSeenNested)
    (own : ∀ kind span, found (ownSurvey kind span) ↔ kind.usesFunction = true) (node : Node) :
    found node.survey ↔ ∃ path word, node.at? path = some word ∧
      word.kind.usesFunction = true ∧ node.leadsThrough (follows isSeenNested) path = true := by
  rw [finding.survey_iff]
  simp only [own]
  constructor
  · rintro ⟨path, word, reached, isUse, leads⟩
    refine ⟨path, word, reached, isUse, leadsThrough_mono ?_ leads⟩
    intro kind index part passed
    exact (Bool.and_eq_true_iff.mp passed).2
  · rintro ⟨path, word, reached, isUse, leads⟩
    exact exists_use_of_leadsThrough reached isUse leads

end Context

namespace Node

open Context

/-- Whether a survey of a node comes to what a path leads to. -/
def isSurveyed (node : Node) (path : List Nat) : Bool :=
  node.leadsThrough looksInto path

theorem isSurveyed_eq (node : Node) (path : List Nat) :
    node.leadsThrough (follows true) path = node.isSurveyed path := by
  have same : follows true = looksInto := by
    funext kind index part
    simp [follows]
  rw [same, isSurveyed]

/-- A survey finds a use exactly if it comes to one. -/
theorem usesFunction_survey_iff (node : Node) : node.survey.usesFunction = true ↔
      ∃ path word, node.at? path = some word ∧
        word.kind.usesFunction = true ∧ node.isSurveyed path = true := by
  simp only [← isSurveyed_eq]
  refine isFinding_usesFunction.use_iff (fun kind span => ?_) node
  rw [(usesFunction_ownSurvey kind span).1]

/--
A path leads through a part that no survey looks into: a part of a class other
than its parent and its body, what follows the expression of the parent, or a
part of a meta property.
-/
def IsOverlooked (node : Node) (path : List Nat) : Prop :=
  ∃ outer index inner kind span children part,
    path = outer ++ index :: inner ∧
    node.at? outer = some (mk kind span children) ∧
    children[index]? = some part ∧
    ((∃ isDeclaration, kind = .classDefinition isDeclaration ∧
        part.kind ≠ .heritage ∧ part.kind ≠ .classBody) ∨
      (kind = .heritage ∧ index ≠ 0) ∨
      ∃ target property, kind = .metaProperty target property)

theorem looksInto_eq_false_iff {kind : Kind} {index : Nat} {part : Node} :
    Context.looksInto kind index part = false ↔
      (∃ isDeclaration, kind = .classDefinition isDeclaration ∧
        part.kind ≠ .heritage ∧ part.kind ≠ .classBody) ∨
      (kind = .heritage ∧ index ≠ 0) ∨
      ∃ target property, kind = .metaProperty target property := by
  unfold Context.looksInto
  split <;> simp_all

theorem isSurveyed_eq_false_iff {node word : Node} {path : List Nat}
    (reached : node.at? path = some word) :
    node.isSurveyed path = false ↔ node.IsOverlooked path := by
  constructor
  · intro lost
    obtain ⟨outer, index, inner, kind, span, children, part, isPath, stands, _, isPart, passed⟩ :=
      exists_of_leadsThrough_eq_false reached lost
    exact ⟨outer, index, inner, kind, span, children, part, isPath, stands, isPart,
      looksInto_eq_false_iff.mp passed⟩
  · rintro ⟨outer, index, inner, kind, span, children, part, rfl, stands, isPart, passed⟩
    exact leadsThrough_eq_false stands isPart (looksInto_eq_false_iff.mpr passed)

end Node

end Codemod
