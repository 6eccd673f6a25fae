import Codemod.Pipeline
import Codemod.Proofs.Destructure.Verdicts
import Codemod.Proofs.Scope.Records

/-!
# Properties that are changed

An access becomes a name only if nothing in its owner changes the property:
assigns to it, updates it, takes it as the variable of a loop or deletes it.
`Modifies` reads this off the syntax, for places at any depth of a pattern that
is assigned to.

The walk over a tree hands down how a place is used through parentheses, but
not through `as`, `satisfies`, `!` or an assertion in angle brackets.  What
stands in one of these counts as read, so a change of that kind, and no other,
is overlooked.
-/

namespace Codemod

namespace Node

/-- Whether a node only says something about the type of an expression. -/
def isTypeWrapper (node : Node) : Bool :=
  match node.kind with
  | .asType => true
  | .satisfiesType => true
  | .typeAssertion => true
  | .nonNull => true
  | _ => false

/-- An expression without the parentheses and type wrappers around it. -/
def unwrapped : Node → Node
  | mk .parenthesized _ [inner] => unwrapped inner
  | mk .asType _ (inner :: _) => unwrapped inner
  | mk .satisfiesType _ (inner :: _) => unwrapped inner
  | mk .typeAssertion _ [_, inner] => unwrapped inner
  | mk .nonNull _ (inner :: _) => unwrapped inner
  | other => other

/-- An expression is a place that a target assigns to. -/
inductive TargetOf (place : Node) : Node → Prop
  | place {span : Span} {rest : List Node} : TargetOf place (mk .target span (place :: rest))
  | array {span : Span} {items : List Node} {item : Node} (member : item ∈ items)
      (inner : TargetOf place item) : TargetOf place (mk .arrayTarget span items)
  | object {span : Span} {parts : List Node} {part : Node} (member : part ∈ parts)
      (inner : TargetOf place part) : TargetOf place (mk .objectTarget span parts)
  | property {isComputed : Bool} {span : Span} {key value : Node}
      (inner : TargetOf place value) :
      TargetOf place (mk (.targetProperty isComputed) span [key, value])
  | default {span : Span} {target : Node} {rest : List Node}
      (inner : TargetOf place target) :
      TargetOf place (mk .targetDefault span (target :: rest))
  | rest {span : Span} {target : Node} {rest : List Node}
      (inner : TargetOf place target) : TargetOf place (mk .targetRest span (target :: rest))

/-- A node changes what stands at a place. -/
inductive Modifies : Node → Node → Prop
  | assignment {operator : String} {span : Span} {left place : Node} {rest : List Node}
      (target : TargetOf place left) :
      Modifies (mk (.assignment operator) span (left :: rest)) place
  | update {operator : String} {span : Span} {operand place : Node} {rest : List Node}
      (target : TargetOf place operand) :
      Modifies (mk (.update operator) span (operand :: rest)) place
  | forIn {span : Span} {left place : Node} {rest : List Node}
      (target : TargetOf place left) : Modifies (mk .forIn span (left :: rest)) place
  | forOf {span : Span} {left place : Node} {rest : List Node}
      (target : TargetOf place left) : Modifies (mk .forOf span (left :: rest)) place
  | delete {span : Span} {operand : Node} {rest : List Node} :
      Modifies (mk (.unary .delete) span (operand :: rest)) operand

theorem unwrapped_eq_withoutParentheses {node : Node}
    (plain : node.withoutParentheses.isTypeWrapper = false) :
    node.unwrapped = node.withoutParentheses := by
  fun_induction withoutParentheses node with
  | case1 span inner ih =>
    rw [unwrapped]
    exact ih plain
  | case2 node notParenthesized =>
    unfold unwrapped
    split
    · exact absurd rfl (notParenthesized _ _)
    · cases plain
    · cases plain
    · cases plain
    · cases plain
    · rfl

theorem write_subset_of_child {kind : Kind} {span : Span} {children : List Node}
    {place child : Node} (notReference : ∀ name, kind ≠ .reference name)
    (member : child ∈ children)
    (writes : ∀ access, place.trace .write ⊆ child.trace access) (access : Access) :
    place.trace .write ⊆ (mk kind span children).trace access := by
  obtain ⟨used, subset⟩ := exists_trace_subset_of_child notReference span member access
  exact List.Subset.trans (writes used) subset

/-- A target writes to its places, however it is used itself. -/
theorem TargetOf.write_subset {place left : Node} (target : TargetOf place left)
    (access : Access) : place.trace .write ⊆ left.trace access := by
  induction target generalizing access with
  | place => exact first_subset_trace .target (by simp) rfl access
  | array member _ ih =>
    exact write_subset_of_child (by simp) member ih access
  | object member _ ih =>
    exact write_subset_of_child (by simp) member ih access
  | @property _ _ key value _ ih =>
    have member : value ∈ [key, value] := by simp
    exact write_subset_of_child (by simp) member ih access
  | default _ ih =>
    exact write_subset_of_child (by simp) List.mem_cons_self ih access
  | rest _ ih =>
    exact write_subset_of_child (by simp) List.mem_cons_self ih access

/-- Whatever changes a place writes to it or deletes it. -/
theorem Modifies.exists_change_subset {node place : Node} (modifies : node.Modifies place)
    (access : Access) :
    ∃ change, change ≠ .read ∧ place.trace change ⊆ node.trace access := by
  have ofTarget {kind : Kind} {span : Span} {left : Node} {rest : List Node}
      (notReference : ∀ name, kind ≠ .reference name) (target : TargetOf place left) :
      ∃ change, change ≠ .read ∧ place.trace change ⊆ (mk kind span (left :: rest)).trace access :=
    ⟨.write, nofun, write_subset_of_child notReference List.mem_cons_self
      target.write_subset access⟩
  cases modifies with
  | assignment target => exact ofTarget (by simp) target
  | update target => exact ofTarget (by simp) target
  | forIn target => exact ofTarget (by simp) target
  | forOf target => exact ofTarget (by simp) target
  | delete => exact ⟨.delete, nofun, first_subset_trace (.unary .delete) (by simp) rfl access⟩

/-- Parentheses hand down how a chain is used. -/
theorem exists_member_mem_trace {node : Node} {chain : MemberChain}
    (isChain : node.withoutParentheses.chain? = some chain) (isLong : chain.path ≠ [])
    (access : Access) : ∃ span, .member chain span access ∈ node.trace access := by
  fun_induction withoutParentheses node with
  | case1 span inner ih =>
    obtain ⟨place, member⟩ := ih isChain
    exact ⟨place, first_subset_trace .parenthesized (by simp) rfl access member⟩
  | case2 node _ =>
    unfold chain? at isChain
    split at isChain
    · cases isChain
      exact absurd rfl isLong
    · cases isChain
      exact absurd rfl isLong
    · next property span object rest _ =>
      refine ⟨span, notes_subset_trace _ _ ?_⟩
      simp [notes, chain?, isChain]
    · cases isChain

end Node

namespace Destructure

open ScopeTable

variable {setting : Setting}

/-- What a function notes, a name of which it replaces accesses, changes nothing. -/
theorem chain?_ne_of_unchanged {owner : ScopeId} {name : String}
    (unchanged : change? setting owner name = none) {inner place : Node} {access : Access}
    (noted : ∀ step ∈ inner.trace access, setting.table.Notes owner step)
    (modifies : inner.Modifies place) :
    place.withoutParentheses.chain? ≠ some ⟨setting.self.root, ["props", name]⟩ := by
  intro isChain
  obtain ⟨change, notRead, subset⟩ := modifies.exists_change_subset access
  obtain ⟨span, member⟩ := Node.exists_member_mem_trace isChain nofun change
  obtain ⟨id, within, isNoted⟩ := noted _ (subset member)
  exact change?_eq_none_iff.1 unchanged ⟨_, isNoted, rfl, notRead, within⟩

/--
If an access of a function becomes a name, then nothing in the function changes
the property of that name, unless the place that is changed stands in a type
wrapper.
-/
theorem replaced_properties_are_changed_only_in_wrappers (program : Program)
    (options : TransformOptions) (isText : program.root.kind = .program)
    {owner : FunctionRecord} {judgement : Judgement}
    (judged : Judged (.ofProgram program options) owner judgement)
    (replaced : judgement.verdict.isReplaced = true) :
    ∃ node, Lists program.root owner node ∧
      ∀ inner ∈ node.nodes, ∀ place, inner.Modifies place →
        place.unwrapped.chain? =
          some ⟨options.selfReference.root, ["props", judgement.name]⟩ →
        place.withoutParentheses.isTypeWrapper = true := by
  have wellFormed := wellFormed_ofProgram program options
  obtain ⟨_, _, _, isVerdict⟩ := judged.candidate wellFormed
  obtain ⟨_, nameUnblocked, _⟩ := (verdict_eq_iff replaced).1 isVerdict.symm
  have unchanged := (nameBlocker?_eq_none_iff.1 nameUnblocked).2.1
  obtain ⟨node, lists, record⟩ := exists_isRecord isText judged.member
  refine ⟨node, lists, fun inner member place modifies isChain => ?_⟩
  cases isWrapper : place.withoutParentheses.isTypeWrapper with
  | true => rfl
  | false =>
    rw [Node.unwrapped_eq_withoutParentheses isWrapper] at isChain
    rcases record.notes member with rfl | ⟨access, noted⟩
    · have isFunction := record.isFunction
      cases modifies <;> cases isFunction
    · exact absurd isChain (chain?_ne_of_unchanged unchanged noted modifies)

/-- A function that assigns to a property in a type wrapper and reads it. -/
def wrappedWrite : List Char :=
  "function f() { (this.props.x as any) = 1; return this.props.x; }".toList

/-- Whether a node assigns to the property of a name, in whatever wrappers. -/
def assignsTo (chain : MemberChain) : Node → Bool
  | .mk (.assignment _) _ (.mk .target _ (place :: _) :: _) =>
    place.unwrapped.chain? == some chain
  | _ => false

theorem modifies_of_assignsTo {chain : MemberChain} {node : Node}
    (assigns : assignsTo chain node = true) :
    ∃ place, node.Modifies place ∧ place.unwrapped.chain? = some chain := by
  unfold assignsTo at assigns
  split at assigns
  · exact ⟨_, .assignment .place, beq_iff_eq.1 assigns⟩
  · cases assigns

/-- In the sample the access becomes a name although the property is assigned to. -/
theorem replaced_properties_are_changed_only_in_wrappers_in_wrappedWrite :
    ∃ program, parseProgram (.ofPath "a.ts") wrappedWrite = some program ∧
      ∃ owner judgement node, Judged (.ofProgram program .standard) owner judgement ∧
        judgement.verdict.isReplaced = true ∧ Lists program.root owner node ∧
        ∃ inner ∈ node.nodes, ∃ place, inner.Modifies place ∧
          place.unwrapped.chain? = some ⟨.this, ["props", judgement.name]⟩ ∧
          place.withoutParentheses.isTypeWrapper = true := by
  obtain ⟨program, parsed, assigned, owner, member, judgement, judged, replaced, isName⟩ :
      ∃ program ∈ parseProgram (.ofPath "a.ts") wrappedWrite,
        (∀ node ∈ program.root.functions,
          node.nodes.any (assignsTo ⟨.this, ["props", "x"]⟩) = true) ∧
        ∃ owner ∈ (Setting.ofProgram program .standard).table.functions,
        ∃ judgement ∈ judgements (.ofProgram program .standard)
          (candidates (.ofProgram program .standard)) owner,
          judgement.verdict.isReplaced = true ∧ judgement.name = "x" := by
    decide +kernel
  obtain ⟨node, lists, each⟩ := replaced_properties_are_changed_only_in_wrappers program
    .standard (kind_of_parseProgram parsed) ⟨member, judged⟩ replaced
  obtain ⟨inner, isInner, assigns⟩ := List.any_eq_true.1 (assigned node lists.mem)
  obtain ⟨place, modifies, isChain⟩ := modifies_of_assignsTo assigns
  rw [← isName] at isChain
  exact ⟨program, parsed, owner, judgement, node, ⟨member, judged⟩, replaced, lists,
    inner, isInner, place, modifies, isChain, each inner isInner place modifies isChain⟩

/-- What becomes of the sample assigns to the name instead of the property. -/
theorem wrapped_write_becomes_name :
    ∃ output, Transform.propsToDestructuring.run (.ofPath "a.ts") .standard
        wrappedWrite = some output ∧
      output.text =
        "function f() { const { x } = this.props; (x as any) = 1; return x; }".toList :=
  Option.map_eq_some_iff.1 (by decide +kernel)

end Destructure

end Codemod
