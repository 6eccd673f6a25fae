import Codemod.Proofs.Scope.Expectation
import Mathlib.Data.List.Infix

/-!
# Classes that wait for their scopes

A survey expects one class at a time.  When it comes to a class it expects the
scope of that class, and the next block that opens at this depth is taken for it.
The scope of the class itself is that block only if no part before it holds
another class or opens a block there.

`waitsAt` says by the tree alone whether a class is expected at a place, and
`takesClass` whether the scope that opens there is taken for that of a class.  A
node opens its scope at once (`opensAtOnce`) if nothing is entered between the
node and its scope, and if no class that waits for its own scope is given this
one instead.  The scope of a class opens at once if no part before it takes the
scope of the class.
-/

namespace Codemod

open Trace ScopeTable

/-- A scope that has a part after its start has a part inside. -/
theorem ScopeForm.start_lt_stop {form : ScopeForm} {children : List Node}
    (isShort : form.start children < children.length) :
    form.start children < form.stop children := by
  cases form with
  | branch =>
    rw [start] at isShort ⊢
    rw [stop]
    omega
  | _ => exact isShort

/-- Whether a node of this kind is a name that is used. -/
def Kind.isReference : Kind → Bool
  | reference _ => true
  | _ => false

namespace Node

/-- The parts of a node that come before its scope. -/
def head (node : Node) : List Node :=
  node.kind.scopeForm?.elim [] fun form => node.children.take (form.start node.children)

/--
Whether a class no longer waits for its scope after a part before the scope: the
part holds a class, or a block that opens where the class waits.
-/
def disturbsClass (part : Node) : Bool :=
  part.openings.any fun place => (part.at? place).any fun node =>
    node.kind.isClass || (!node.kind.holdsVariables && (part.scopesAt place).isEmpty)

/-- Whether a place lies in a part before the scope of a class, with no scope between them. -/
def awaitsClass (root : Node) (place : Place) : Bool :=
  place.inits.any fun outer =>
    outer != place && ((root.at? outer).any fun node => node.kind.isClass) &&
      root.scopesAt outer == root.scopesAt place

/-- Whether the scope of the node at a place opens at once. -/
def opensAtOnce (root : Node) (place : Place) : Bool :=
  (root.at? place).any fun node =>
    if node.kind.isClass then node.head.all fun part => !part.disturbsClass
    else node.kind.isEntered && (node.head.all fun part => part.kind.isReference) &&
      (node.kind.holdsVariables || !root.awaitsClass place)

/--
Whether a class waits for its scope when the part of a node with a number comes,
if it is known whether one waits when the node comes.
-/
def awaitsBefore (node : Node) (isAwaited : Bool) (index : Nat) : Bool :=
  (isAwaited || node.kind.isClass) &&
    (node.kind.scopeForm?.all fun form => decide (index ≤ form.start node.children)) &&
    (node.children.take index).all fun part => !part.disturbsClass

/-- Whether a class waits for its scope at a place, if it is known whether one waits at the root. -/
def waitsFrom : Node → Bool → Place → Bool
  | _, isAwaited, [] => isAwaited
  | mk kind span children, isAwaited, index :: rest =>
    match children[index]? with
    | some child =>
      let node := mk kind span children
      child.waitsFrom (!node.holdsInScope index && node.awaitsBefore isAwaited index) rest
    | none => false

/-- Whether a class waits for its scope when the walk over a tree comes to a place. -/
def waitsAt (root : Node) (place : Place) : Bool :=
  root.waitsFrom false place

/-- Whether the scope that the node at a place opens is taken for the scope of a class. -/
def takesClass (root : Node) (place : Place) : Bool :=
  (root.at? place).any fun node =>
    !node.kind.holdsVariables && (node.kind.isClass || root.waitsAt place) &&
      node.head.all fun part => !part.disturbsClass

variable {root node child : Node} {place : Place} {form : ScopeForm} {index : Nat}

theorem head_eq (isForm : node.kind.scopeForm? = some form) :
    node.head = node.children.take (form.start node.children) := by
  rw [head, isForm]
  rfl

section

variable (reached : root.at? place = some node)
include reached

/-- Below a part that stands in the scope of a node the scope is open. -/
theorem mem_scopesAt_of_holdsInScope {below : Place} (isChild : node.children[index]? = some child)
    (holds : node.holdsInScope index = true) (isBelow : place ++ [index] <+: below) :
    place ∈ root.scopesAt below := by
  obtain ⟨rest, rfl⟩ := isBelow
  rw [scopesAt_append rest (at?_part reached isChild), scopesAt_part reached isChild, if_pos holds]
  simp

/-- A node disturbs a class that waits before it exactly if the node is not quiet there. -/
theorem areQuiet_node_iff :
    root.AreQuiet (root.scopesAt place).length ((Stretch.node place).openings root) ↔
      node.disturbsClass = false := by
  have sameDepth : ∀ below, (root.scopesAt (place ++ below)).length = (root.scopesAt place).length ↔
      node.scopesAt below = [] := by
    intro below
    rw [scopesAt_append below reached, List.length_append, List.length_map, Nat.add_eq_right,
      List.length_eq_zero_iff]
  have isInner : ∀ below, root.at? (place ++ below) = node.at? below := by
    intro below
    rw [at?_append, reached, Option.bind_some]
  rw [AreQuiet, Stretch.openings_node reached, disturbsClass, List.any_eq_false]
  simp only [List.forall_mem_map, sameDepth, isInner]
  refine forall₂_congr fun below _ => ?_
  cases node.at? below with
  | none => simp
  | some inner =>
    cases holds : inner.kind.holdsVariables <;> simp [holds]

theorem areQuiet_parts_iff {first count : Nat} (inside : first + count ≤ node.children.length)
    (outside : ∀ index, first ≤ index → index < first + count → node.holdsInScope index = false) :
    root.AreQuiet (root.scopesAt place).length
        ((Stretch.parts place false first count).openings root) ↔
      ∀ part ∈ (node.children.drop first).take count, part.disturbsClass = false := by
  induction count generalizing first with
  | zero => simp [AreQuiet, Stretch.openings_nothing]
  | succ count ih =>
    have isFirst : first < node.children.length := by omega
    have isChild := List.getElem?_eq_getElem isFirst
    have sameScopes : root.scopesAt (place ++ [first]) = root.scopesAt place := by
      rw [scopesAt_part reached isChild, outside first (Nat.le_refl _) (by omega)]
      rfl
    have here := areQuiet_node_iff (at?_part reached isChild)
    have fits : first + 1 + count ≤ node.children.length := by omega
    have rest := ih fits fun index notBefore before =>
      outside index (by omega) (by omega)
    rw [sameScopes] at here
    rw [List.drop_eq_getElem_cons isFirst, List.take_succ_cons, List.forall_mem_cons, ← here,
      ← rest, Stretch.openings_succ reached isChild]
    simp only [AreQuiet, List.forall_mem_append]

/-- What comes before the scope of a node disturbs no class exactly if it is quiet. -/
theorem areQuiet_head_iff (isForm : node.kind.scopeForm? = some form) :
    root.AreQuiet (root.scopesAt place).length
        ((Stretch.parts place false 0 (form.start node.children)).openings root) ↔
      ∀ part ∈ node.head, part.disturbsClass = false := by
  have fits := Nat.le_trans (form.start_le_stop node.children) (form.stop_le_length node.children)
  rw [areQuiet_parts_iff reached (by omega), head_eq isForm, List.drop_zero]
  intro index _ before
  rw [← Bool.not_eq_true, holdsInScope_of_some isForm]
  omega

end

theorem waitsFrom_part (isAwaited : Bool) (reached : root.at? place = some node)
    (isChild : node.children[index]? = some child) :
    root.waitsFrom isAwaited (place ++ [index]) =
      (!node.holdsInScope index && node.awaitsBefore (root.waitsFrom isAwaited place) index) := by
  induction place generalizing root isAwaited with
  | nil =>
    obtain ⟨kind, span, children⟩ := root
    cases reached
    have isHere : children[index]? = some child := isChild
    simp [waitsFrom, isHere]
  | cons first rest ih =>
    obtain ⟨kind, span, children⟩ := root
    obtain ⟨inner, isInner, below⟩ := at?_cons_eq_some_iff.1 reached
    rw [List.cons_append, waitsFrom, waitsFrom, isInner]
    exact ih _ below

theorem waitsAt_part (reached : root.at? place = some node)
    (isChild : node.children[index]? = some child) :
    root.waitsAt (place ++ [index]) =
      (!node.holdsInScope index && node.awaitsBefore (root.waitsAt place) index) :=
  waitsFrom_part false reached isChild

theorem awaitsBefore_zero (node : Node) (isAwaited : Bool) :
    node.awaitsBefore isAwaited 0 = (isAwaited || node.kind.isClass) := by
  cases isForm : node.kind.scopeForm? <;> simp [awaitsBefore, isForm]

/-- A part outside the scope of a node that is not after its start comes before it. -/
theorem lt_start (isForm : node.kind.scopeForm? = some form)
    (isChild : node.children[index]? = some child) (isOutside : node.holdsInScope index = false)
    (notAfter : index ≤ form.start node.children) : index < form.start node.children := by
  refine Nat.lt_of_le_of_ne notAfter ?_
  rintro rfl
  have inside := form.start_lt_stop (List.getElem?_eq_some_iff.1 isChild).1
  rw [(holdsInScope_of_some isForm).2 ⟨Nat.le_refl _, inside⟩] at isOutside
  cases isOutside

/-- A class that waits before a part outside the scope waits after it if the part leaves it so. -/
theorem awaitsBefore_succ (isAwaited : Bool) (isChild : node.children[index]? = some child)
    (isOutside : node.holdsInScope index = false) :
    node.awaitsBefore isAwaited (index + 1) =
      (node.awaitsBefore isAwaited index && !child.disturbsClass) := by
  have sameSide : (node.kind.scopeForm?.all fun form =>
        decide (index + 1 ≤ form.start node.children)) =
      node.kind.scopeForm?.all fun form => decide (index ≤ form.start node.children) := by
    cases isForm : node.kind.scopeForm? with
    | none => rfl
    | some form =>
      rw [Option.all_some, Option.all_some, decide_eq_decide]
      exact ⟨Nat.le_of_succ_le, lt_start isForm isChild isOutside⟩
  rw [awaitsBefore, awaitsBefore, sameSide, List.take_add_one, isChild, Option.toList_some,
    List.all_append, List.all_cons, List.all_nil, Bool.and_true, Bool.and_assoc, Bool.and_assoc,
    Bool.and_assoc]

/-- After the scope of a node no class waits any more. -/
theorem awaitsBefore_stop (isAwaited : Bool) (isForm : node.kind.scopeForm? = some form)
    (isShort : form.stop node.children < node.children.length) :
    node.awaitsBefore isAwaited (form.stop node.children) = false := by
  have ordered := form.start_lt_stop (Nat.lt_of_le_of_lt (form.start_le_stop node.children) isShort)
  have isLater : decide (form.stop node.children ≤ form.start node.children) = false :=
    decide_eq_false (Nat.not_le_of_lt ordered)
  rw [awaitsBefore, isForm, Option.all_some, isLater, Bool.and_false, Bool.false_and]

/-- Only a block has parts after its scope. -/
theorem opening_eq_block_of_tail (isForm : node.kind.scopeForm? = some form)
    (isShort : form.stop node.children < node.children.length) {opening : Opening}
    (isOpening : node.opening? = some opening) : opening = .block := by
  obtain ⟨kind, span, children⟩ := node
  cases form with
  | branch =>
    change kind.scopeForm? = some .branch at isForm
    unfold Kind.scopeForm? at isForm
    split at isForm
    all_goals cases isForm
    cases isOpening
    rfl
  | _ => exact absurd isShort (Nat.lt_irrefl _)

theorem holdsVariables_of_isClass {kind : Kind} (isClass : kind.isClass = true) :
    kind.holdsVariables = false := by
  cases kind <;> first | rfl | cases isClass

theorem takesClass_of_isClass (reached : root.at? place = some node)
    (isClass : node.kind.isClass = true) :
    root.takesClass place = !(node.head.any disturbsClass) := by
  rw [takesClass, reached, Option.any_some, holdsVariables_of_isClass isClass, isClass,
    List.not_any_eq_all_not]
  rfl

theorem mem_head (isClass : node.kind.isClass = true)
    (isChild : node.children[index]? = some child) (isOutside : node.holdsInScope index = false)
    (notAfter : (node.kind.scopeForm?.all fun form =>
      decide (index ≤ form.start node.children)) = true) : child ∈ node.head := by
  cases isForm : node.kind.scopeForm? with
  | none =>
    rw [isClass_eq_false isForm] at isClass
    cases isClass
  | some form =>
    rw [isForm, Option.all_some, decide_eq_true_eq] at notAfter
    have isBefore := lt_start isForm isChild isOutside notAfter
    rw [head_eq isForm]
    exact List.mem_of_getElem? ((List.getElem?_take_of_lt isBefore).trans isChild)

/-- A class that waits at a place has it in a part before its scope, with no scope between. -/
theorem exists_class_of_waitsFrom {isAwaited : Bool}
    (waits : root.waitsFrom isAwaited place = true) :
    isAwaited = true ∧ root.scopesAt place = [] ∨
      ∃ outer index rest owner part, place = outer ++ index :: rest ∧
        root.at? outer = some owner ∧ owner.kind.isClass = true ∧
        owner.children[index]? = some part ∧ owner.holdsInScope index = false ∧
        part ∈ owner.head ∧ part.scopesAt rest = [] := by
  induction place generalizing root isAwaited with
  | nil =>
    cases root
    exact Or.inl ⟨waits, rfl⟩
  | cons index rest ih =>
    obtain ⟨kind, span, children⟩ := root
    rw [waitsFrom] at waits
    split at waits
    · next child isChild =>
      rcases ih waits with ⟨isHere, noScopes⟩ | isBelow
      · rw [Bool.and_eq_true, Bool.not_eq_true', awaitsBefore, Bool.and_eq_true,
          Bool.and_eq_true, Bool.or_eq_true] at isHere
        obtain ⟨isOutside, ⟨isAwaited | isClass, isHead⟩, _⟩ := isHere
        · refine Or.inl ⟨isAwaited, ?_⟩
          rw [scopesAt, isChild]
          simp [noScopes, isOutside]
        · refine Or.inr ⟨[], index, rest, mk kind span children, child, rfl, at?_nil _, isClass,
            isChild, isOutside, ?_, noScopes⟩
          exact mem_head isClass isChild isOutside isHead
      · obtain ⟨outer, number, below, owner, part, rfl, reached, isOwner⟩ := isBelow
        exact Or.inr ⟨index :: outer, number, below, owner, part, rfl,
          at?_cons_eq_some_iff.2 ⟨child, isChild, reached⟩, isOwner⟩
    · cases waits

theorem awaitsClass_of_waitsAt (waits : root.waitsAt place = true) :
    root.awaitsClass place = true := by
  rcases exists_class_of_waitsFrom waits with ⟨isFalse, _⟩ | isBelow
  · cases isFalse
  · obtain ⟨outer, index, rest, owner, part, rfl, reached, isClass, isPart, isOutside, _,
      noScopes⟩ := isBelow
    rw [awaitsClass, List.any_eq_true]
    refine ⟨outer, (List.mem_inits _ _).2 (List.prefix_append _ _), ?_⟩
    rw [List.append_cons, scopesAt_append rest (at?_part reached isPart),
      scopesAt_part reached isPart]
    simp [reached, isClass, isOutside, noScopes]

/-- The scope of a class opens at once exactly if it is taken for that of the class. -/
theorem opensAtOnce_of_isClass (reached : root.at? place = some node)
    (isClass : node.kind.isClass = true) : root.opensAtOnce place = root.takesClass place := by
  rw [takesClass_of_isClass reached isClass, opensAtOnce, reached, Option.any_some, if_pos isClass,
    List.not_any_eq_all_not]

/-- The scope of another node that opens at once is not taken for that of a class. -/
theorem takesClass_of_opensAtOnce (reached : root.at? place = some node)
    (notClass : node.kind.isClass = false) (atOnce : root.opensAtOnce place = true) :
    node.kind.isEntered = true ∧ (∀ part ∈ node.head, part.kind.isReference = true) ∧
      root.takesClass place = false := by
  rw [opensAtOnce, reached, Option.any_some, notClass, if_neg Bool.false_ne_true, Bool.and_eq_true,
    Bool.and_eq_true, List.all_eq_true] at atOnce
  obtain ⟨⟨isEntered, areReferences⟩, notAwaited⟩ := atOnce
  refine ⟨isEntered, areReferences, ?_⟩
  rw [← Bool.not_eq_true]
  intro takes
  rw [takesClass, reached, Option.any_some, notClass, Bool.false_or, Bool.and_eq_true,
    Bool.and_eq_true, Bool.not_eq_true'] at takes
  obtain ⟨⟨isBlock, waits⟩, _⟩ := takes
  rw [isBlock, awaitsClass_of_waitsAt waits] at notAwaited
  cases notAwaited

end Node

end Codemod
