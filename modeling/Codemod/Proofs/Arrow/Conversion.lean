import Codemod.Proofs.Context.Finding
import Codemod.Transform.Arrow

/-!
# Which functions become arrows

A function and an arrow differ in what `this`, `super`, the arguments and the
construction target mean in them, and an arrow cannot be constructed.  The
transform looks for such uses with a survey of the function.  From what the
survey finds and what it passes over, this module says exactly which functions
are converted.

The survey sees of a class only its parent and its body.  A use in a decorator,
in a type argument of the parent or in an implemented interface goes unnoticed.
-/

namespace Codemod

namespace Node

/-- Whether a path leads through parentheses only. -/
def isThroughParentheses : Node → List Nat → Bool
  | _, [] => true
  | mk kind _ children, index :: path =>
    kind == .parenthesized &&
      match children[index]? with
      | some child => child.isThroughParentheses path
      | none => false

/-- What a path leads to is called as a constructor, parentheses aside. -/
def IsConstructed (root : Node) (path : List Nat) : Prop :=
  ∃ outer inner span callee arguments,
    path = outer ++ 0 :: inner ∧
    root.at? outer = some (mk .construction span (callee :: arguments)) ∧
    callee.isThroughParentheses inner = true

theorem isConstructed_cons_iff {kind : Kind} {span : Span} {children : List Node}
    {index : Nat} {path : List Nat} {child : Node}
    (isChild : children[index]? = some child) :
    (mk kind span children).IsConstructed (index :: path) ↔
      (kind = .construction ∧ index = 0 ∧ child.isThroughParentheses path = true) ∨
        child.IsConstructed path := by
  constructor
  · rintro ⟨outer, inner, span', callee, arguments, split, reached, through⟩
    cases outer with
    | nil =>
      rw [List.nil_append, List.cons.injEq] at split
      rcases split with ⟨rfl, rfl⟩
      rw [at?_nil, Option.some.injEq, mk.injEq] at reached
      rcases reached with ⟨rfl, rfl, rfl⟩
      rw [List.getElem?_cons_zero, Option.some.injEq] at isChild
      subst isChild
      exact Or.inl ⟨rfl, rfl, through⟩
    | cons first outer =>
      rw [List.cons_append, List.cons.injEq] at split
      rcases split with ⟨rfl, rfl⟩
      rcases at?_cons_eq_some_iff.mp reached with ⟨middle, isMiddle, below⟩
      rw [isChild, Option.some.injEq] at isMiddle
      subst isMiddle
      exact Or.inr ⟨outer, inner, span', callee, arguments, rfl, below, through⟩
  · rintro (⟨rfl, rfl, through⟩ | ⟨outer, inner, span', callee, arguments, rfl, reached, through⟩)
    · cases children with
      | nil => cases isChild
      | cons callee arguments =>
        cases isChild
        exact ⟨[], path, span, child, arguments, rfl, at?_nil _, through⟩
    · refine ⟨index :: outer, inner, span', callee, arguments, rfl, ?_, through⟩
      exact at?_cons_eq_some_iff.mpr ⟨child, isChild, reached⟩

end Node

namespace Arrow

/-- Where what a path leads to stands, if the node itself stands in a slot. -/
def slotAt : Node → List Nat → Slot → Slot
  | _, [], slot => slot
  | .mk kind _ children, index :: path, slot =>
    match children[index]? with
    | some child => slotAt child path (childSlot kind children slot index)
    | none => .other

variable {slot : Slot} {root node : Node}

theorem isConstructed_childSlot {kind : Kind} {children : List Node} {index : Nat} :
    (childSlot kind children slot index).isConstructed = true ↔ (kind = .construction ∧ index = 0) ∨
        (kind = .parenthesized ∧ slot.isConstructed = true) := by
  unfold childSlot
  split <;> simp_all [Slot.other]

/-- The slots say exactly what is constructed. -/
theorem isConstructed_slotAt {path : List Nat} (reached : root.at? path = some node) :
    (slotAt root path slot).isConstructed = true ↔
      (slot.isConstructed = true ∧ root.isThroughParentheses path = true) ∨
        root.IsConstructed path := by
  induction path generalizing root slot with
  | nil =>
    rw [slotAt, Node.isThroughParentheses]
    constructor
    · intro own
      exact Or.inl ⟨own, rfl⟩
    · rintro (⟨own, _⟩ | ⟨outer, inner, _, _, _, split, _⟩)
      · exact own
      · simp at split
  | cons index path ih =>
    cases root with
    | mk kind span children =>
      rcases Node.at?_cons_eq_some_iff.mp reached with ⟨child, isChild, below⟩
      rw [slotAt, isChild, Node.isConstructed_cons_iff isChild, Node.isThroughParentheses, isChild]
      simp only [ih below, isConstructed_childSlot, Bool.and_eq_true, beq_iff_eq]
      constructor
      · rintro (⟨⟨isNew, first⟩ | ⟨isParenthesized, own⟩, through⟩ | inside)
        · exact Or.inr (Or.inl ⟨isNew, first, through⟩)
        · exact Or.inl ⟨own, isParenthesized, through⟩
        · exact Or.inr (Or.inr inside)
      · rintro (⟨own, isParenthesized, through⟩ | ⟨isNew, first, through⟩ | inside)
        · exact Or.inl ⟨Or.inr ⟨isParenthesized, own⟩, through⟩
        · exact Or.inl ⟨Or.inl ⟨isNew, first⟩, through⟩
        · exact Or.inr inside

theorem isConstructed_slotAt_other {path : List Nat} (reached : root.at? path = some node) :
    (slotAt root path .other).isConstructed = true ↔ root.IsConstructed path := by
  rw [isConstructed_slotAt reached]
  simp [Slot.other]

theorem planFrom_mk (program : Program) (style : Style) (kind : Kind) (span : Span)
    (children : List Node) (slot : Slot) :
    planFrom program style (.mk kind span children) slot =
      consider program style (.mk kind span children) slot ++
        Plan.concat (children.zipIdx.map fun (child, index) =>
          planFrom program style child (childSlot kind children slot index)) := by
  simp only [planFrom, Node.fold_mk, List.map_map, Function.comp_def, List.map_id', List.zipIdx_map]
  rfl

/-- The plan for a tree is what is considered at each occurrence in it. -/
theorem mem_planFrom_edits_iff {program : Program} {style : Style} {edit : Edit} :
    edit ∈ (planFrom program style root slot).edits ↔ ∃ path node, root.at? path = some node ∧
        edit ∈ (consider program style node (slotAt root path slot)).edits := by
  induction root using Node.induction generalizing slot with
  | step kind span children ih =>
    rw [planFrom_mk, Plan.edits_append, List.mem_append, Plan.edits_concat, List.mem_flatMap]
    constructor
    · rintro (own | ⟨plan, isPlan, member⟩)
      · exact ⟨[], _, Node.at?_nil _, own⟩
      · rcases List.mem_map.mp isPlan with ⟨⟨child, index⟩, numbered, rfl⟩
        have isChild := List.mem_zipIdx_iff_getElem?.mp numbered
        rcases (ih child (List.mem_of_getElem? isChild)).mp
          member with ⟨path, node, reached, considered⟩
        refine ⟨index :: path, node, ?_, ?_⟩
        · exact Node.at?_cons_eq_some_iff.mpr ⟨child, isChild, reached⟩
        · rw [slotAt, isChild]
          exact considered
    · rintro ⟨path, node, reached, considered⟩
      cases path with
      | nil =>
        rw [Node.at?_nil, Option.some.injEq] at reached
        subst reached
        exact Or.inl considered
      | cons index path =>
        rcases Node.at?_cons_eq_some_iff.mp reached with ⟨child, isChild, below⟩
        rw [slotAt, isChild] at considered
        refine Or.inr ⟨_, List.mem_map.mpr ⟨(child, index), ?_, rfl⟩, ?_⟩
        · exact List.mem_zipIdx_iff_getElem?.mpr isChild
        · exact (ih child (List.mem_of_getElem? isChild)).mpr
            ⟨path, node, below, considered⟩

/--
A function expression with a body, without a name, that generates no values and
does not declare its `this`.  Methods, getters and setters are no expressions.
-/
structure IsPlainFunction (node : Node) : Prop where
  isExpression : ∃ isAsync, node.kind = .function ⟨.expression, isAsync, false⟩
  hasParameters : ∃ parameters,
    (node.children.find? fun child => child.kind == .parameters) = some parameters ∧
      ∀ child ∈ parameters.children, child.kind ≠ .thisParameter
  hasBody : ∃ body ∈ node.children, body.kind = .functionBody
  isAnonymous : ∀ child ∈ node.children, ∀ name, child.kind ≠ .binding name

theorem isBinding_eq_false_iff : isBinding node = false ↔ ∀ name, node.kind ≠ .binding name := by
  unfold isBinding
  split <;> simp_all

theorem parts?_isSome_iff :
    (parts? node.kind node.children).isSome = true ↔ IsPlainFunction node := by
  constructor
  · intro given
    rcases Option.isSome_iff_exists.mp given with ⟨parts, isParts⟩
    unfold parts? at isParts
    split at isParts
    · next isAsync isKind =>
      simp only [Option.bind_eq_bind, Option.bind_eq_some_iff] at isParts
      rcases isParts with ⟨parameters, isParameters, body, isBody, rest⟩
      split at rest
      · cases rest
      · next unnamed =>
        simp only [Bool.or_eq_true, List.any_eq_true, not_or, not_exists, not_and,
          Bool.not_eq_true, beq_eq_false_iff_ne] at unnamed
        refine ⟨⟨isAsync, isKind⟩, ⟨parameters, isParameters, unnamed.2⟩, ?_, ?_⟩
        · refine ⟨body, List.mem_of_find?_eq_some isBody, ?_⟩
          simpa using List.find?_some isBody
        · intro child member
          exact isBinding_eq_false_iff.mp (unnamed.1 child member)
    · cases isParts
  · rintro ⟨⟨isAsync, isKind⟩, ⟨parameters, isParameters, noThis⟩, ⟨body, isChild, isBody⟩, unnamed⟩
    have hasBody : (node.children.find? fun child =>
        child.kind == .functionBody).isSome = true := by
      rw [List.find?_isSome]
      exact ⟨body, isChild, by simp [isBody]⟩
    rcases Option.isSome_iff_exists.mp hasBody with ⟨found, isFound⟩
    have noName : node.children.any isBinding = false := by
      rw [List.any_eq_false]
      intro child member
      rw [isBinding_eq_false_iff.mpr (unnamed child member)]
      exact Bool.false_ne_true
    simpa [parts?, isKind, isParameters, isFound, noName] using noThis

theorem blocker?_eq_none_iff {survey : Context.Survey} : blocker? slot survey = none ↔
      slot.isConstructed = false ∧ survey.usesFunction = false := by
  rw [blocker?, Context.Survey.usesFunction]
  cases slot.isConstructed <;> cases survey.hasThis <;> cases survey.hasContext <;>
    simp

theorem mem_consider_edits_iff {program : Program} {style : Style} {edit : Edit} :
    edit ∈ (consider program style node slot).edits ↔
      ∃ parts, parts? node.kind node.children = some parts ∧
        slot.isConstructed = false ∧ node.survey.usesFunction = false ∧
        edit ∈ conversion program style node.kind node.span slot parts := by
  rw [consider]
  cases isParts : parts? node.kind node.children with
  | none => simp [Plan.empty]
  | some parts =>
    have unblocked := @blocker?_eq_none_iff slot node.survey
    cases isBlocker : blocker? slot node.survey with
    | none =>
      rcases unblocked.mp isBlocker with ⟨unconstructed, noUse⟩
      simp [unconstructed, noUse]
    | some reason =>
      constructor
      · intro absurd_
        cases absurd_
      · rintro ⟨_, _, unconstructed, noUse, _⟩
        rw [unblocked.mpr ⟨unconstructed, noUse⟩] at isBlocker
        cases isBlocker

/-- A survey without a use leaves only uses that it does not come to. -/
theorem usesFunction_survey_eq_false_iff : node.survey.usesFunction = false ↔
      ∀ path word, node.at? path = some word → word.kind.usesFunction = true →
        node.IsOverlooked path := by
  rw [← Bool.not_eq_true, Node.usesFunction_survey_iff]
  constructor
  · intro none_ path word reached isUse
    rw [← Node.isSurveyed_eq_false_iff reached, ← Bool.not_eq_true]
    intro surveyed
    exact none_ ⟨path, word, reached, isUse, surveyed⟩
  · rintro overlooked ⟨path, word, reached, isUse, surveyed⟩
    have passed := overlooked path word reached isUse
    rw [← Node.isSurveyed_eq_false_iff reached, surveyed] at passed
    cases passed

/--
The functions that become arrows are the function expressions with a body that
have no name, generate nothing, are not constructed, and use the function around
them at most where no survey looks.  The edits of a text are the conversions of
exactly these.
-/
theorem conversions_overlook_only_class_heads (program : Program)
    (options : TransformOptions) (edit : Edit) :
    edit ∈ (Transform.functionToArrow.plan program options).edits ↔
      ∃ path function parts,
        program.root.at? path = some function ∧
        IsPlainFunction function ∧
        ¬ program.root.IsConstructed path ∧
        (∀ inner word, function.at? inner = some word →
          word.kind.usesFunction = true → function.IsOverlooked inner) ∧
        parts? function.kind function.children = some parts ∧
        edit ∈ conversion program options.style function.kind function.span
          (slotAt program.root path .other) parts := by
  change edit ∈ (planFrom program options.style program.root .other).edits ↔ _
  rw [mem_planFrom_edits_iff]
  constructor
  · rintro ⟨path, function, reached, considered⟩
    rcases mem_consider_edits_iff.mp considered with
      ⟨parts, isParts, unconstructed, noUse, member⟩
    refine ⟨path, function, parts, reached, ?_, ?_, ?_, isParts, member⟩
    · apply parts?_isSome_iff.mp
      rw [isParts]
      rfl
    · intro constructed
      rw [(isConstructed_slotAt_other reached).mpr constructed] at unconstructed
      cases unconstructed
    · exact usesFunction_survey_eq_false_iff.mp noUse
  · rintro ⟨path, function, parts, reached, _, unconstructed, overlooked, isParts,
      member⟩
    refine ⟨path, function, reached, mem_consider_edits_iff.mpr
      ⟨parts, isParts, ?_, ?_, member⟩⟩
    · rw [← Bool.not_eq_true, isConstructed_slotAt_other reached]
      exact unconstructed
    · exact usesFunction_survey_eq_false_iff.mpr overlooked

/-- A function that declares a class with `this` in its decorator. -/
def decoratedClass : Option Program :=
  parseProgram .plain "const f = function() { @(this.d) class C {} return C; };".toList

/-- In the sample the function becomes an arrow, although `this` occurs in it. -/
theorem decorator_with_this_becomes_arrow :
    ∃ program, decoratedClass = some program ∧
      ∃ path function inner word,
        program.root.at? path = some function ∧
        (consider program .standard function
          (slotAt program.root path .other)).edits ≠ [] ∧
        function.at? inner = some word ∧ word.kind = .thisExpression := by
  obtain ⟨program, parsed, function, reached, edited, word, below, isThis⟩ :
      ∃ program ∈ decoratedClass, ∃ function ∈ program.root.at? [0, 0, 1],
        (consider program .standard function (slotAt program.root [0, 0, 1] .other)).edits ≠ [] ∧
        ∃ word ∈ function.at? [1, 0, 0, 0, 0, 0], word.kind = .thisExpression := by
    decide +kernel
  exact ⟨program, parsed, [0, 0, 1], function, _, word, reached, edited, below, isThis⟩

end Arrow

end Codemod
