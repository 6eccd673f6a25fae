import Codemod.Proofs.Component.Plan

/-!
# Components that do not depend on their function

The body of a component moves from an arrow function to a method, where `this`,
`super`, the arguments and the construction target mean something else.  A
component is left as it is if a survey of its body finds such a use outside the
functions and the bodies of classes in it.

Not everything in the body of a class belongs to the class.  The decorators of a
member and its computed key are evaluated where the class stands, and the survey
does not tell them from the rest of the body.
-/

namespace Codemod

/-- Whether a node of this kind is a function that is no arrow. -/
def Kind.bindsFunction : Kind → Bool
  | function _ => true
  | _ => false

/-- Whether the key of a member of a class is computed. -/
def Kind.hasComputedKey : Kind → Bool
  | method _ isComputed => isComputed
  | field _ isComputed => isComputed
  | accessorField _ isComputed => isComputed
  | _ => false

namespace Node

/--
Whether a part of a member of a class is evaluated where the class stands: a
decorator, or a computed key behind the decorators.
-/
def isHeadPart (member : Node) (index : Nat) : Bool :=
  let decorators := (member.children.takeWhile fun part => part.kind == .decorator).length
  index < decorators || (index == decorators && member.kind.hasComputedKey)

/-- Whether a path takes a step of some sort: from a node to a part, with the path from there. -/
def takes (step : Kind → Node → List Nat → Bool) : Node → List Nat → Bool
  | _, [] => false
  | mk kind _ children, index :: path =>
    match children[index]? with
    | some child => step kind child path || child.takes step path
    | none => false

/-- Whether a step leads into the body of a class, and on into the head of a member or not. -/
def entersMember (intoHead : Bool) (kind : Kind) (part : Node) (path : List Nat) : Bool :=
  match kind, path with
  | .classDefinition _, position :: rest =>
    part.kind == .classBody && (part.children[position]?).any fun member =>
      rest.head?.any member.isHeadPart == intoHead
  | _, _ => false

/--
Whether a path leads into a function that is no arrow, or into what belongs to a
member of a class: its value, its function or its statements.
-/
def isInside : Node → List Nat → Bool :=
  takes fun kind part path => kind.bindsFunction || entersMember false kind part path

/-- Whether a path leads into a decorator or into a computed key of a member of a class. -/
def isInHead : Node → List Nat → Bool :=
  takes (entersMember true)

variable {node word : Node} {path : List Nat}

theorem takes_cons {step : Kind → Node → List Nat → Bool} {kind : Kind} {span : Span}
    {children : List Node} {index : Nat} {child : Node} (isChild : children[index]? = some child) :
    (mk kind span children).takes step (index :: path) =
      (step kind child path || child.takes step path) := by
  rw [takes, isChild]

/-- A step out of sight of the function leads into a function, a member or a head. -/
theorem hides_eq {kind : Kind} {part : Node} (reached : part.at? path = some word)
    (isUse : word.kind.usesFunction = true) :
    Context.hides kind part = (kind.bindsFunction || entersMember false kind part path ||
        entersMember true kind part path) := by
  unfold Context.hides
  split
  · rfl
  · next isDeclaration =>
    obtain ⟨partKind, span, members⟩ := part
    cases path with
    | nil =>
      -- The body of a class is no use itself.
      rw [at?_nil, Option.some.injEq] at reached
      subst reached
      cases isBody : partKind == Kind.classBody with
      | false => simp [Kind.bindsFunction, entersMember, isBody]
      | true =>
        rw [kind_mk, beq_iff_eq.mp isBody] at isUse
        cases isUse
    | cons position rest =>
      obtain ⟨member, isMember, _⟩ := at?_cons_eq_some_iff.mp reached
      simp only [Kind.bindsFunction, entersMember, kind_mk, children_mk, isMember,
        Option.any_some, Bool.false_or]
      cases rest.head?.any member.isHeadPart <;> simp
  · next notFunction notClass =>
    have notBinding : kind.bindsFunction = false := by
      unfold Kind.bindsFunction
      split <;> simp_all
    unfold entersMember
    split <;> simp_all

/-- A survey loses sight of a use exactly if a step hides it or no survey looks there. -/
theorem leadsThrough_follows_eq_false_iff (reached : node.at? path = some word)
    (isUse : word.kind.usesFunction = true) :
    node.leadsThrough (Context.follows false) path = false ↔
      node.isInside path = true ∨ node.isInHead path = true ∨ node.isSurveyed path = false := by
  induction path generalizing node with
  | nil => simp [isSurveyed, isInside, isInHead, takes]
  | cons index path ih =>
    obtain ⟨kind, span, children⟩ := node
    obtain ⟨child, isChild, below⟩ := at?_cons_eq_some_iff.mp reached
    have hidden : Context.hides kind child = _ := hides_eq below isUse
    have deeper := ih below
    simp only [isInside, isInHead, isSurveyed] at deeper ⊢
    rw [takes_cons isChild, takes_cons isChild, leadsThrough, isChild, leadsThrough, isChild]
    simp only [Bool.and_eq_false_iff, Bool.or_eq_true, Context.follows, Bool.false_or,
      Bool.not_eq_false', hidden, deeper]
    tauto

/-- The survey notices no use of the function exactly if each one is hidden or overlooked. -/
theorem usesOwnFunction_survey_eq_false_iff : node.survey.usesOwnFunction = false ↔
      ∀ path word, node.at? path = some word → word.kind.usesFunction = true →
        node.isInside path = true ∨ node.isInHead path = true ∨ node.IsOverlooked path := by
  have noticed : node.survey.usesOwnFunction = true ↔ _ :=
    Context.isFinding_usesOwnFunction.use_iff
      (fun kind span => by rw [(Context.usesFunction_ownSurvey kind span).2]) node
  rw [← Bool.not_eq_true, noticed]
  constructor
  · intro none_ path word reached isUse
    rw [← isSurveyed_eq_false_iff reached, ← leadsThrough_follows_eq_false_iff reached isUse,
      ← Bool.not_eq_true]
    exact fun leads => none_ ⟨path, word, reached, isUse, leads⟩
  · rintro each ⟨path, word, reached, isUse, leads⟩
    have lost := each path word reached isUse
    rw [← isSurveyed_eq_false_iff reached, ← leadsThrough_follows_eq_false_iff reached isUse,
      leads] at lost
    cases lost

end Node

namespace Component

/--
A component is converted exactly if it is not async, has not the name of the base
class, its parameter can be redirected, and its body uses the function around at
most inside functions and members of classes, where no survey looks, or in the
decorators and computed keys of members.
-/
theorem converted_bodies_overlook_only_heads (program : Program) (options : TransformOptions)
    {statement : Node} {candidate : Candidate}
    (isStatement : statement ∈ program.root.bodyStatements)
    (isLone : loneCandidate? statement = some candidate) :
    (∃ edits, Converts program options statement candidate edits) ↔
      candidate.name ≠ options.componentBase.toList ∧ candidate.isAsync = false ∧
      (∃ redirected, redirections (.ofProgram program.root) candidate = .ok redirected) ∧
      ∀ path word, candidate.body.at? path = some word → word.kind.usesFunction = true →
        candidate.body.isInside path = true ∨ candidate.body.isInHead path = true ∨
          candidate.body.IsOverlooked path := by
  rw [← Node.usesOwnFunction_survey_eq_false_iff, ← survey_of_loneCandidate? isLone]
  constructor
  · rintro ⟨edits, converts⟩
    obtain ⟨otherName, notAsync, noUse, redirected, isRedirected, _⟩ :=
      conversion_eq_ok_iff.mp converts.isConverted
    exact ⟨otherName, notAsync, ⟨redirected, isRedirected⟩, noUse⟩
  · rintro ⟨otherName, notAsync, ⟨redirected, isRedirected⟩, noUse⟩
    exact ⟨_, isStatement, isLone,
      conversion_eq_ok_iff.mpr ⟨otherName, notAsync, noUse, redirected, isRedirected, rfl⟩⟩

/-- A component whose body has a class with a field and a method that use `this`. -/
def nestedReceivers : Option Program :=
  parseProgram .plain
    "const A = () => { class B { x = this.a; m() { return () => super.m(this); } }
      return <b/>; };".toList

/-- The sample is converted, and each of its three uses stands in the class or is overlooked. -/
theorem converted_bodies_overlook_only_heads_in_nestedReceivers :
    ∃ program statement candidate, nestedReceivers = some program ∧
      statement ∈ program.root.bodyStatements ∧ loneCandidate? statement = some candidate ∧
      (∃ word, candidate.body.at? [0, 1, 0, 1, 0] = some word ∧ word.kind = .thisExpression) ∧
      ∀ path word, candidate.body.at? path = some word → word.kind.usesFunction = true →
        candidate.body.isInside path = true ∨ candidate.body.isInHead path = true ∨
          candidate.body.IsOverlooked path := by
  have evaluated : convertsSome nestedReceivers (fun _ candidate _ =>
      (candidate.body.at? [0, 1, 0, 1, 0]).any fun word =>
        word.kind == .thisExpression) = true := by
    decide +kernel
  rcases exists_converts evaluated with
    ⟨program, statement, candidate, edits, parsed, converts, rest⟩
  rcases (Option.any_eq_true ..).mp rest with ⟨word, reached, isThis⟩
  have uses := (converted_bodies_overlook_only_heads program .standard converts.isStatement
    converts.isLone).mp ⟨edits, converts⟩
  exact ⟨program, statement, candidate, parsed, converts.isStatement, converts.isLone,
    ⟨word, reached, beq_iff_eq.mp isThis⟩, uses.2.2.2⟩

/-- A component whose body has a class with `this` in a computed key. -/
def computedKey : Option Program :=
  parseProgram .plain
    "const A = () => { class B { [this.x]() {} } return <div />; };".toList

/-- In the sample the component is converted, although `this` is that of the arrow function. -/
theorem computed_key_with_this_is_moved :
    ∃ program statement candidate edits word, computedKey = some program ∧
      Converts program .standard statement candidate edits ∧
      candidate.body.at? [0, 1, 0, 0, 0] = some word ∧ word.kind = .thisExpression ∧
      candidate.body.isInside [0, 1, 0, 0, 0] = false := by
  have evaluated : convertsSome computedKey (fun _ candidate _ =>
      (candidate.body.at? [0, 1, 0, 0, 0]).any fun word =>
        word.kind == .thisExpression && !candidate.body.isInside [0, 1, 0, 0, 0]) = true := by
    decide +kernel
  rcases exists_converts evaluated with
    ⟨program, statement, candidate, edits, parsed, converts, rest⟩
  rcases (Option.any_eq_true ..).mp rest with ⟨word, reached, isThis⟩
  rcases Bool.and_eq_true_iff.mp isThis with ⟨isThis, outside⟩
  exact ⟨program, statement, candidate, edits, word, parsed, converts, reached,
    beq_iff_eq.mp isThis, by simpa using outside⟩

end Component

end Codemod
