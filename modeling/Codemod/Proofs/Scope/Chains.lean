import Codemod.Proofs.Tree.Occurrence
import Codemod.Scope.Chain
import Mathlib.Data.List.Induction

/-!
# Chains and the expressions that spell them

An expression has a chain exactly if it is, but for where it stands, the expression
that starts at the root of the chain and adds one plain member for each name of its
path.  So no step on the way from an expression to its start can be in
parentheses, optional, computed or private.
-/

namespace Codemod

open Node

/-- The expression of a root, standing nowhere. -/
def ChainRoot.expression : ChainRoot → Node
  | this => .mk .thisExpression ⟨0, 0⟩ []
  | name text => .mk (.reference text) ⟨0, 0⟩ []

/-- The expression that spells a chain, standing nowhere. -/
def MemberChain.expression (chain : MemberChain) : Node :=
  chain.path.foldl (fun object property =>
    .mk (.member property false) ⟨0, 0⟩ [object, .mk (.name property) ⟨0, 0⟩ []])
    chain.root.expression

/-- Whether a step of this kind breaks a chain. -/
def Kind.breaksChain : Kind → Bool
  | parenthesized => true
  | member _ isOptional => isOptional
  | computedMember _ => true
  | privateMember _ => true
  | _ => false

namespace Node

/-- The tree of a node without where its parts stand. -/
def unplaced : Node → Node :=
  fold fun kind _ children => mk kind ⟨0, 0⟩ (children.map (·.2))

/-- Whether the parts of a node are those of a member, of `this` or of a name, if it is one. -/
def arePartsNamed : Kind → List Node → Bool
  | .member property _, [_, mk (.name text) _ []] => text == property
  | .member _ _, _ => false
  | .thisExpression, children => children.isEmpty
  | .reference _, children => children.isEmpty
  | _, _ => true

/-- Whether each member of a tree has an object and its name, and each start no parts. -/
def areMembersNamed : Node → Bool :=
  fold fun kind _ children => arePartsNamed kind (children.map (·.1)) && children.all (·.2)

variable {kind : Kind} {span : Span} {children : List Node} {node : Node} {chain : MemberChain}

theorem unplaced_mk : (mk kind span children).unplaced =
    mk kind ⟨0, 0⟩ (children.map unplaced) := by
  simp [unplaced, fold_mk, Function.comp_def]

theorem areMembersNamed_mk : (mk kind span children).areMembersNamed = true ↔
    arePartsNamed kind children = true ∧ ∀ child ∈ children, child.areMembersNamed = true := by
  simp [areMembersNamed, fold_mk, Function.comp_def]

theorem expression_push (chain : MemberChain) (property : String) :
    (chain.push property).expression =
      mk (.member property false) ⟨0, 0⟩ [chain.expression, mk (.name property) ⟨0, 0⟩ []] := by
  rw [MemberChain.expression, MemberChain.push, List.foldl_append]
  rfl

/-- A member has an object and its name. -/
theorem children_of_areMembersNamed {property : String} {isOptional : Bool}
    (named : (mk (.member property isOptional) span children).areMembersNamed = true) :
    ∃ object place, children = [object, mk (.name property) place []] ∧
      object.areMembersNamed = true := by
  obtain ⟨own, each⟩ := areMembersNamed_mk.1 named
  unfold arePartsNamed at own
  split at own
  · next object text place same =>
    cases same
    obtain rfl := beq_iff_eq.1 own
    exact ⟨_, _, rfl, each _ List.mem_cons_self⟩
  all_goals simp_all

theorem unplaced_of_chain? (named : node.areMembersNamed = true)
    (isChain : node.chain? = some chain) : node.unplaced = chain.expression := by
  fun_induction chain? node generalizing chain with
  | case1 span children =>
    cases isChain
    obtain rfl := List.isEmpty_iff.1 (areMembersNamed_mk.1 named).1
    rw [unplaced_mk]
    rfl
  | case2 name span children =>
    cases isChain
    obtain rfl := List.isEmpty_iff.1 (areMembersNamed_mk.1 named).1
    rw [unplaced_mk]
    rfl
  | case3 property span object others ih =>
    obtain ⟨shorter, isShorter, rfl⟩ := Option.map_eq_some_iff.1 isChain
    obtain ⟨_, place, same, deeper⟩ := children_of_areMembersNamed named
    cases same
    rw [unplaced_mk, expression_push, ← ih deeper isShorter]
    simp [unplaced_mk]
  | case4 => cases isChain

theorem chain?_of_unplaced (same : node.unplaced = chain.expression) :
    node.chain? = some chain := by
  obtain ⟨root, path⟩ := chain
  induction path using List.reverseRecOn generalizing node with
  | nil =>
    obtain ⟨kind, span, children⟩ := node
    have isKind := congrArg Node.kind same
    rw [unplaced_mk] at isKind
    cases root <;> cases isKind <;> rfl
  | append_singleton path property ih =>
    obtain ⟨kind, span, children⟩ := node
    have isLonger := expression_push ⟨root, path⟩ property
    rw [MemberChain.push] at isLonger
    rw [isLonger, unplaced_mk, mk.injEq] at same
    obtain ⟨rfl, _, areParts⟩ := same
    obtain ⟨object, others, rfl, isObject, _⟩ := List.map_eq_cons_iff.1 areParts
    rw [chain?, ih isObject]
    rfl

/-- Each step on the way from an expression with a chain to its start has a chain. -/
theorem isSome_chain?_of_at? {depth : Nat} {step : Node} (isChain : node.chain? = some chain)
    (reached : node.at? (List.replicate depth 0) = some step)
    (named : node.areMembersNamed = true) : step.chain?.isSome = true := by
  induction depth generalizing node chain with
  | zero =>
    rw [List.replicate_zero, at?_nil, Option.some.injEq] at reached
    rw [← reached, isChain]
    rfl
  | succ depth ih =>
    obtain ⟨kind, span, children⟩ := node
    obtain ⟨object, isObject, below⟩ := at?_cons_eq_some_iff.1 reached
    have each := (areMembersNamed_mk.1 named).2 object (List.mem_of_getElem? isObject)
    have own := (areMembersNamed_mk.1 named).1
    unfold chain? at isChain
    split at isChain
    · next same =>
      cases same
      cases List.isEmpty_iff.1 own
      cases isObject
    · next same =>
      cases same
      cases List.isEmpty_iff.1 own
      cases isObject
    · next same =>
      cases same
      cases isObject
      obtain ⟨shorter, isShorter, _⟩ := Option.map_eq_some_iff.1 isChain
      exact ih isShorter below each
    · cases isChain

theorem chain?_of_breaksChain (breaks : node.kind.breaksChain = true) : node.chain? = none := by
  unfold chain?
  split
  · cases breaks
  · cases breaks
  · cases breaks
  · rfl

end Node

/--
The chain of an expression tells what the expression is, but for where its parts stand,
and expressions with one chain are the same.  A step that is in parentheses, optional,
computed or private breaks every chain through it, and to follow a path from a root
is to be the chain of both.
-/
theorem chains_are_plain_paths {node : Node} (named : node.areMembersNamed = true) :
    (∀ chain, node.chain? = some chain ↔ node.unplaced = chain.expression) ∧
    (∀ (other : Node) chain, other.areMembersNamed = true → node.chain? = some chain →
      other.chain? = some chain → node.unplaced = other.unplaced) ∧
    (∀ depth step, node.at? (List.replicate depth 0) = some step →
      step.kind.breaksChain = true → node.chain? = none) ∧
    ∀ (chain : MemberChain) root path, chain.isPath root path = true ↔ chain = ⟨root, path⟩ := by
  refine ⟨fun chain => ⟨unplaced_of_chain? named, chain?_of_unplaced⟩, ?_, ?_, fun _ _ _ =>
    MemberChain.isPath_iff⟩
  · intro other chain isNamed isChain isOther
    rw [unplaced_of_chain? named isChain, unplaced_of_chain? isNamed isOther]
  · intro depth step reached breaks
    cases isChain : node.chain? with
    | none => rfl
    | some chain =>
      have isSome := isSome_chain?_of_at? isChain reached named
      rw [chain?_of_breaksChain breaks] at isSome
      cases isSome

/-- `this.props.name`, with where its parts stand. -/
def ownName : Node :=
  .mk (.member "name" false) ⟨0, 15⟩ [
    .mk (.member "props" false) ⟨0, 10⟩ [
      .mk .thisExpression ⟨0, 4⟩ [],
      .mk (.name "props") ⟨5, 10⟩ []],
    .mk (.name "name") ⟨11, 15⟩ []]

/-- The sample is the expression of its chain, but for where its parts stand. -/
theorem chains_are_plain_paths_in_ownName :
    ownName.areMembersNamed = true ∧ ownName.chain? = some ⟨.this, ["props", "name"]⟩ ∧
      ownName.unplaced = (⟨.this, ["props", "name"]⟩ : MemberChain).expression :=
  ⟨rfl, rfl, ((chains_are_plain_paths rfl).1 _).1 rfl⟩

end Codemod
