import Codemod.Proofs.Enumeration
import Codemod.Proofs.Scope.Places
import Codemod.Proofs.Tree.Shape

/-!
# The names of patterns

`BoundAt` finds the names that a pattern binds, to any depth, by the way that
leads to them.  The names that are listed of a pattern are these, one for each
way and from left to right (`lists_declaredNames`).
-/

namespace Codemod

namespace Kind

/-- Whether a node of this kind stands only in a list of parameters or in a `catch`. -/
def isParameter : Kind → Bool
  | parameter _ => true
  | catchParameter => true
  | _ => false

/-- Whether a node of this kind is a pattern or a part of one. -/
def isPattern : Kind → Bool
  | binding _ => true
  | patternProperty _ _ => true
  | rest => true
  | objectPattern => true
  | arrayPattern => true
  | patternDefault => true
  | _ => false

end Kind

namespace Node

/-- A pattern binds the name to which a way through the pattern leads. -/
inductive BoundAt (name : String) (place : Span) : Node → Place → Prop
  | binding {types : List Node} : BoundAt name place (mk (.binding name) place types) []
  | shorthand {isComputed : Bool} {span : Span} {value : Node} {path : Place}
      (inner : BoundAt name place value path) :
      BoundAt name place (mk (.patternProperty true isComputed) span [value]) (0 :: path)
  | pair {isComputed : Bool} {span : Span} {key value : Node} {path : Place}
      (inner : BoundAt name place value path) :
      BoundAt name place (mk (.patternProperty false isComputed) span [key, value]) (1 :: path)
  | rest {span : Span} {argument : Node} {path : Place}
      (inner : BoundAt name place argument path) :
      BoundAt name place (mk .rest span [argument]) (0 :: path)
  | object {span : Span} {parts : List Node} {part : Node} {index : Nat} {path : Place}
      (isPart : parts[index]? = some part) (inner : BoundAt name place part path) :
      BoundAt name place (mk .objectPattern span parts) (index :: path)
  | array {span : Span} {items : List Node} {item : Node} {index : Nat} {path : Place}
      (isItem : items[index]? = some item) (inner : BoundAt name place item path) :
      BoundAt name place (mk .arrayPattern span items) (index :: path)
  | default {span : Span} {pattern : Node} {more : List Node} {path : Place}
      (inner : BoundAt name place pattern path) :
      BoundAt name place (mk .patternDefault span (pattern :: more)) (0 :: path)

variable {kind : Kind} {span place : Span} {children : List Node} {node pattern : Node}
  {name : String} {path : Place}

/-- What a pattern binds stands where the way leads. -/
theorem BoundAt.at?_eq (bound : pattern.BoundAt name place path) :
    ∃ types, pattern.at? path = some (mk (.binding name) place types) := by
  induction bound with
  | @binding types => exact ⟨types, at?_nil _⟩
  | shorthand _ ih => exact ih
  | pair _ ih => exact ih
  | rest _ ih => exact ih
  | object isPart _ ih =>
    obtain ⟨types, reached⟩ := ih
    exact ⟨types, at?_cons_eq_some_iff.2 ⟨_, isPart, reached⟩⟩
  | array isItem _ ih =>
    obtain ⟨types, reached⟩ := ih
    exact ⟨types, at?_cons_eq_some_iff.2 ⟨_, isItem, reached⟩⟩
  | default _ ih => exact ih

theorem BoundAt.of_part {index : Nat} {child : Node}
    (isBound : (mk kind span children).BoundAt name place (index :: path))
    (isChild : children[index]? = some child) : child.BoundAt name place path := by
  cases isBound with
  | shorthand inner =>
    cases isChild
    exact inner
  | pair inner =>
    cases isChild
    exact inner
  | rest inner =>
    cases isChild
    exact inner
  | object isPart inner =>
    rw [isPart, Option.some.injEq] at isChild
    exact isChild ▸ inner
  | array isItem inner =>
    rw [isItem, Option.some.injEq] at isChild
    exact isChild ▸ inner
  | default inner =>
    cases isChild
    exact inner

/-- Whatever is on the way to a name that a pattern binds binds the name too. -/
theorem BoundAt.of_at? {before after : Place} {inner : Node}
    (isBound : pattern.BoundAt name place (before ++ after))
    (reached : pattern.at? before = some inner) : inner.BoundAt name place after := by
  induction before generalizing pattern with
  | nil =>
    rw [at?_nil, Option.some.injEq] at reached
    exact reached ▸ isBound
  | cons index rest ih =>
    obtain ⟨kind, span, children⟩ := pattern
    obtain ⟨child, isChild, below⟩ := at?_cons_eq_some_iff.1 reached
    exact ih (isBound.of_part isChild) below

theorem isParameter_part (shaped : arePartsShaped kind children = true)
    (notParameters : kind ≠ .parameters) (notCatch : kind ≠ .catchClause) :
    ∀ child ∈ children, child.kind.isParameter = false := by
  intro child member
  simp only [arePartsShaped, Bool.and_eq_true, List.all_eq_true] at shaped
  have allowed := shaped.1 child member
  unfold mayHave at allowed
  unfold Kind.isParameter
  split <;> simp_all

/-- What a pattern binds, by the way to it. -/
def bound (pattern : Node) (path : Place) (entry : String × Span) : Prop :=
  pattern.BoundAt entry.1 entry.2 path

theorem BoundAt.isPattern (bound : pattern.BoundAt name place path) :
    pattern.kind.isPattern = true := by
  cases bound <;> rfl

theorem declaredNames_eq_nil (notPattern : kind.isPattern = false)
    (notParameter : kind.isParameter = false) (span : Span) (children : List Node) :
    (mk kind span children).declaredNames = [] := by
  rw [declaredNames, fold_mk]
  cases kind <;> first | rfl | (cases notPattern; done) | cases notParameter

/-! ## The parts of patterns -/

variable {entry : String × Span} {isComputed : Bool} {key value argument : Node} {more : List Node}

theorem declaredNames_shorthand :
    (mk (.patternProperty true isComputed) span [value]).declaredNames = value.declaredNames := by
  rw [declaredNames, fold_mk]
  rfl

theorem bound_shorthand : (mk (.patternProperty true isComputed) span [value]).bound path entry ↔
      ∃ inner, 0 :: inner = path ∧ value.bound inner entry := by
  constructor
  · rintro ⟨⟩
    exact ⟨_, rfl, ‹_›⟩
  · rintro ⟨inner, rfl, isBound⟩
    exact .shorthand isBound

theorem declaredNames_pair :
    (mk (.patternProperty false isComputed) span [key, value]).declaredNames =
      value.declaredNames := by
  rw [declaredNames, fold_mk]
  rfl

theorem bound_pair : (mk (.patternProperty false isComputed) span [key, value]).bound path entry ↔
      ∃ inner, 1 :: inner = path ∧ value.bound inner entry := by
  constructor
  · rintro ⟨⟩
    exact ⟨_, rfl, ‹_›⟩
  · rintro ⟨inner, rfl, isBound⟩
    exact .pair isBound

theorem declaredNames_rest : (mk .rest span [argument]).declaredNames = argument.declaredNames := by
  rw [declaredNames, fold_mk]
  exact List.append_nil _

theorem bound_rest : (mk .rest span [argument]).bound path entry ↔
      ∃ inner, 0 :: inner = path ∧ argument.bound inner entry := by
  constructor
  · rintro ⟨⟩
    exact ⟨_, rfl, ‹_›⟩
  · rintro ⟨inner, rfl, isBound⟩
    exact .rest isBound

theorem declaredNames_default :
    (mk .patternDefault span (value :: more)).declaredNames = value.declaredNames := by
  rw [declaredNames, fold_mk]
  rfl

theorem bound_default : (mk .patternDefault span (value :: more)).bound path entry ↔
      ∃ inner, 0 :: inner = path ∧ value.bound inner entry := by
  constructor
  · rintro ⟨⟩
    exact ⟨_, rfl, ‹_›⟩
  · rintro ⟨inner, rfl, isBound⟩
    exact .default isBound

theorem declaredNames_objectPattern :
    (mk .objectPattern span children).declaredNames = children.flatMap declaredNames := by
  rw [declaredNames, fold_mk]
  exact List.flatMap_map _ _ _

theorem bound_objectPattern : (mk .objectPattern span children).bound path entry ↔
      ∃ index child inner, index :: inner = path ∧ children[index]? = some child ∧
        child.bound inner entry := by
  constructor
  · rintro ⟨⟩
    exact ⟨_, _, _, rfl, ‹_›, ‹_›⟩
  · rintro ⟨index, child, inner, rfl, isChild, isBound⟩
    exact .object isChild isBound

theorem declaredNames_arrayPattern :
    (mk .arrayPattern span children).declaredNames = children.flatMap declaredNames := by
  rw [declaredNames, fold_mk]
  exact List.flatMap_map _ _ _

theorem bound_arrayPattern : (mk .arrayPattern span children).bound path entry ↔
      ∃ index child inner, index :: inner = path ∧ children[index]? = some child ∧
        child.bound inner entry := by
  constructor
  · rintro ⟨⟩
    exact ⟨_, _, _, rfl, ‹_›, ‹_›⟩
  · rintro ⟨index, child, inner, rfl, isChild, isBound⟩
    exact .array isChild isBound

theorem lists_binding : ListsByPath (mk (.binding name) span children).bound
      (mk (.binding name) span children).declaredNames := by
  rw [declaredNames, fold_mk]
  refine .singleton [] fun path entry => ?_
  constructor
  · rintro ⟨⟩
    exact ⟨rfl, rfl⟩
  · rintro ⟨rfl, rfl⟩
    exact .binding

/-- The names of a pattern are listed from left to right, one for each place that binds one. -/
theorem lists_declaredNames (shaped : pattern.isWellShaped = true)
    (notParameter : pattern.kind.isParameter = false) :
    ListsByPath pattern.bound pattern.declaredNames := by
  induction pattern using Node.induction with
  | step kind span children ih =>
    rw [kind_mk] at notParameter
    obtain ⟨own, parts⟩ := isWellShaped_mk.1 shaped
    cases isPattern : kind.isPattern with
    | true =>
      have each : ∀ child ∈ children, ListsByPath child.bound child.declaredNames := by
        intro child member
        refine ih child member (parts child member) ?_
        refine isParameter_part own ?_ ?_ child member
        · rintro rfl
          cases isPattern
        · rintro rfl
          cases isPattern
      simp only [arePartsShaped, Bool.and_eq_true] at own
      cases kind with
      | binding name => exact lists_binding
      | patternProperty isShorthand isComputed =>
        cases isShorthand with
        | true =>
          obtain ⟨value, rfl⟩ := List.length_eq_one_iff.1 (beq_iff_eq.1 own.2)
          rw [declaredNames_shorthand]
          exact ((each value List.mem_cons_self).below 0).congr fun _ _ =>
            bound_shorthand.symm
        | false =>
          obtain ⟨key, value, rfl⟩ := List.length_eq_two.1 (beq_iff_eq.1 own.2)
          rw [declaredNames_pair]
          exact ((each value (by simp)).below 1).congr fun _ _ => bound_pair.symm
      | rest =>
        obtain ⟨argument, rfl⟩ := List.length_eq_one_iff.1 (beq_iff_eq.1 own.2)
        rw [declaredNames_rest]
        exact ((each argument List.mem_cons_self).below 0).congr fun _ _ => bound_rest.symm
      | objectPattern =>
        rw [declaredNames_objectPattern]
        exact (ListsByPath.parts each).congr fun _ _ => bound_objectPattern.symm
      | arrayPattern =>
        rw [declaredNames_arrayPattern]
        exact (ListsByPath.parts each).congr fun _ _ => bound_arrayPattern.symm
      | patternDefault =>
        cases children with
        | nil =>
          rw [declaredNames, fold_mk]
          exact .nil fun path entry isBound => by cases isBound
        | cons value more =>
          rw [declaredNames_default]
          exact ((each value List.mem_cons_self).below 0).congr fun _ _ =>
            bound_default.symm
      | _ => cases isPattern
    | false =>
      rw [declaredNames_eq_nil isPattern notParameter]
      exact .nil fun path entry isBound =>
        Bool.false_ne_true (isPattern.symm.trans (BoundAt.isPattern isBound))

end Node

end Codemod
