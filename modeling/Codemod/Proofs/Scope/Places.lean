import Codemod.Proofs.Scope.Layout
import Mathlib.Data.List.Nodup

/-!
# Where scopes stand in a tree

A place is the way from the root of a tree to a node.  The scopes of a tree are
known by the places of the nodes that open them, `scopesAt` lists those that are
open at a place, and `openings` lists all of them in the order in which they
open.  Nothing here looks at traces.
-/

namespace Codemod

/-- The way from the root of a tree to a node: the numbers of the parts it leads through. -/
abbrev Place : Type := List Nat

/-- Whether `var` declarations stop at the scope of a node of this kind. -/
def Kind.holdsVariables : Kind → Bool
  | program => true
  | function _ => true
  | arrow _ _ => true
  | staticBlock => true
  | _ => false

namespace Node

/-- Whether a part of a node, by its number, stands in the scope that the node opens. -/
def holdsInScope (node : Node) (index : Nat) : Bool :=
  node.kind.scopeForm?.any fun form =>
    decide (form.start node.children ≤ index) && decide (index < form.stop node.children)

/-- The places of the nodes whose scopes are open at a place, innermost first. -/
def scopesAt : Node → Place → List Place
  | _, [] => []
  | mk kind span children, index :: rest =>
    match children[index]? with
    | some child =>
      (child.scopesAt rest).map (index :: ·) ++
        if (mk kind span children).holdsInScope index then [[]] else []
    | none => []

/-- How the node at a place is used, if the tree is used in some way. -/
def accessFrom (access : Access) : Node → Place → Access
  | _, [] => access
  | mk kind _ children, index :: rest =>
    match children[index]? with
    | some child => child.accessFrom (kind.passes access index) rest
    | none => .read

/-- How the node at a place of a text is used. -/
def accessAt (root : Node) (place : Place) : Access :=
  accessFrom .read root place

/-- The place of the innermost scope that is open at a place. -/
def innermost? (root : Node) (place : Place) : Option Place :=
  (root.scopesAt place).head?

/-- The place of the nearest scope at which `var` declarations at a place stop. -/
def holder? (root : Node) (place : Place) : Option Place :=
  (root.scopesAt place).find? fun outer =>
    (root.at? outer).any fun node => node.kind.holdsVariables

/-- The places of the nodes of a tree that open scopes, in the order in which these open. -/
def openings : Node → List Place :=
  fold fun kind _ children =>
    let start := (kind.scopeForm?.map fun form => form.start (children.map (·.1))).getD 0
    let inParts := fun (first : Nat) (parts : List (Node × List Place)) =>
      (parts.zipIdx first).flatMap fun part => part.1.2.map (part.2 :: ·)
    inParts 0 (children.take start) ++ (if kind.scopeForm?.isSome then [[]] else []) ++
      inParts start (children.drop start)

/-- The places of the nodes that open scopes in parts that follow one another. -/
def partOpenings (first : Nat) (children : List Node) : List Place :=
  (children.zipIdx first).flatMap fun part => part.1.openings.map (part.2 :: ·)

variable {kind : Kind} {span : Span} {children : List Node} {root node child : Node}
  {place outer : Place} {form : ScopeForm} {first index : Nat}

theorem openings_of_none (noForm : kind.scopeForm? = none) :
    (mk kind span children).openings = partOpenings 0 children := by
  rw [openings, fold_mk]
  simp [noForm, partOpenings, List.zipIdx_map, List.flatMap_map, openings]

theorem openings_of_some (isForm : kind.scopeForm? = some form) : (mk kind span children).openings =
      partOpenings 0 (children.take (form.start children)) ++
        [] :: partOpenings (form.start children) (children.drop (form.start children)) := by
  rw [openings, fold_mk]
  simp [isForm, partOpenings, List.zipIdx_map, List.flatMap_map, openings, Function.comp_def,
    ← List.map_take, ← List.map_drop]

theorem partOpenings_append (first : Nat) (children others : List Node) :
    partOpenings first (children ++ others) =
      partOpenings first children ++ partOpenings (first + children.length) others := by
  rw [partOpenings, List.zipIdx_append, List.flatMap_append]
  rfl

theorem partOpenings_cons (first : Nat) (child : Node) (rest : List Node) :
    partOpenings first (child :: rest) =
      child.openings.map (first :: ·) ++ partOpenings (first + 1) rest := by
  rw [partOpenings, List.zipIdx_cons, List.flatMap_cons]
  rfl

theorem mem_partOpenings : place ∈ partOpenings first children ↔
      ∃ index child inner, place = (first + index) :: inner ∧
        children[index]? = some child ∧ inner ∈ child.openings := by
  induction children generalizing first with
  | nil => simp [partOpenings]
  | cons child rest ih =>
    rw [partOpenings_cons, List.mem_append, List.mem_map, ih]
    constructor
    · rintro (⟨inner, isInner, rfl⟩ | ⟨index, other, inner, rfl, isOther, isInner⟩)
      · exact ⟨0, child, inner, rfl, rfl, isInner⟩
      · exact ⟨index + 1, other, inner, by rw [Nat.add_right_comm, Nat.add_assoc], isOther,
          isInner⟩
    · rintro ⟨index, other, inner, rfl, isOther, isInner⟩
      cases index with
      | zero =>
        cases isOther
        exact Or.inl ⟨inner, isInner, rfl⟩
      | succ index =>
        exact Or.inr ⟨index, other, inner, by rw [Nat.add_right_comm, Nat.add_assoc], isOther,
          isInner⟩

theorem partOpenings_split {count : Nat} (inside : count ≤ children.length) :
    partOpenings first children = partOpenings first (children.take count) ++
        partOpenings (first + count) (children.drop count) := by
  have split := partOpenings_append first (children.take count) (children.drop count)
  rwa [List.take_append_drop, List.length_take_of_le inside] at split

theorem mem_openings_mk : place ∈ (mk kind span children).openings ↔
      place = [] ∧ kind.scopeForm?.isSome = true ∨ place ∈ partOpenings 0 children := by
  cases isForm : kind.scopeForm? with
  | none => simp [openings_of_none isForm]
  | some form =>
    have inside := Nat.le_trans (form.start_le_stop children) (form.stop_le_length children)
    rw [openings_of_some isForm, partOpenings_split inside, Nat.zero_add]
    simp [or_left_comm]

/-- The nodes that open scopes are those of the kinds that do. -/
theorem mem_openings : place ∈ root.openings ↔ ∃ node, root.at? place = some node ∧
      node.kind.scopeForm?.isSome = true := by
  induction root using Node.induction generalizing place with
  | step kind span children ih =>
    rw [mem_openings_mk, mem_partOpenings]
    cases place with
    | nil => simp
    | cons index rest =>
      simp only [reduceCtorEq, false_and, false_or, Nat.zero_add, List.cons.injEq]
      constructor
      · rintro ⟨_, child, _, ⟨rfl, rfl⟩, isChild, isOpening⟩
        obtain ⟨node, reached, opens⟩ :=
          (ih child (List.mem_of_getElem? isChild)).1 isOpening
        exact ⟨node, at?_cons_eq_some_iff.2 ⟨child, isChild, reached⟩, opens⟩
      · rintro ⟨node, reached, opens⟩
        obtain ⟨child, isChild, inner⟩ := at?_cons_eq_some_iff.1 reached
        exact ⟨index, child, rest, ⟨rfl, rfl⟩, isChild,
          (ih child (List.mem_of_getElem? isChild)).2 ⟨node, inner, opens⟩⟩

theorem nodup_partOpenings (each : ∀ child ∈ children, child.openings.Nodup) :
    (partOpenings first children).Nodup := by
  induction children generalizing first with
  | nil => exact List.nodup_nil
  | cons child rest ih =>
    rw [partOpenings_cons, List.nodup_append]
    refine ⟨(each child List.mem_cons_self).map List.cons_injective, ?_, ?_⟩
    · exact ih fun other member => each other (List.mem_cons_of_mem _ member)
    · intro mine isMine other isOther
      obtain ⟨_, _, rfl⟩ := List.mem_map.1 isMine
      obtain ⟨index, _, _, rfl, _⟩ := mem_partOpenings.1 isOther
      intro same
      have equal := (List.cons.inj same).1
      omega

theorem nil_not_mem_partOpenings : [] ∉ partOpenings first children := by
  intro member
  obtain ⟨_, _, _, same, _⟩ := mem_partOpenings.1 member
  cases same

/-- No node opens two scopes. -/
theorem nodup_openings (root : Node) : root.openings.Nodup := by
  induction root using Node.induction with
  | step kind span children ih =>
    have parts : (partOpenings 0 children).Nodup := nodup_partOpenings ih
    cases isForm : kind.scopeForm? with
    | none => rwa [openings_of_none isForm]
    | some form =>
      have inside := Nat.le_trans (form.start_le_stop children) (form.stop_le_length children)
      rw [openings_of_some isForm]
      rw [partOpenings_split inside, Nat.zero_add] at parts
      rw [List.nodup_middle, List.nodup_cons]
      refine ⟨?_, parts⟩
      rw [List.mem_append]
      rintro (isBefore | isAfter)
      · exact nil_not_mem_partOpenings isBefore
      · exact nil_not_mem_partOpenings isAfter

/-! ## Going down -/

theorem at?_append (root : Node) (outer inner : Place) :
    root.at? (outer ++ inner) = (root.at? outer).bind fun node => node.at? inner := by
  induction outer generalizing root with
  | nil => simp
  | cons index rest ih =>
    obtain ⟨kind, span, children⟩ := root
    rw [List.cons_append, at?, at?]
    cases children[index]? with
    | none => rfl
    | some child => exact ih child

theorem at?_part (reached : root.at? place = some node)
    (isChild : node.children[index]? = some child) :
    root.at? (place ++ [index]) = some child := by
  rw [at?_append, reached, Option.bind_some]
  exact at?_of_getElem? isChild (at?_nil child)

theorem accessFrom_part (access : Access) (reached : root.at? place = some node)
    (isChild : node.children[index]? = some child) :
    root.accessFrom access (place ++ [index]) =
      node.kind.passes (root.accessFrom access place) index := by
  induction place generalizing root access with
  | nil =>
    rw [at?_nil, Option.some.injEq] at reached
    subst reached
    obtain ⟨kind, span, children⟩ := root
    have isHere : children[index]? = some child := isChild
    simp [accessFrom, isHere]
  | cons number rest ih =>
    obtain ⟨kind, span, children⟩ := root
    obtain ⟨other, isOther, below⟩ := at?_cons_eq_some_iff.1 reached
    rw [List.cons_append, accessFrom, accessFrom, isOther]
    exact ih _ below

/-- What is open at a place below a node, seen from the node. -/
theorem scopesAt_append (inner : Place) (reached : root.at? place = some node) :
    root.scopesAt (place ++ inner) =
      (node.scopesAt inner).map (place ++ ·) ++ root.scopesAt place := by
  induction place generalizing root with
  | nil =>
    rw [at?_nil, Option.some.injEq] at reached
    subst reached
    cases root
    simp [scopesAt]
  | cons first rest ih =>
    obtain ⟨kind, span, children⟩ := root
    obtain ⟨child, isChild, below⟩ := at?_cons_eq_some_iff.1 reached
    rw [List.cons_append, scopesAt, scopesAt, isChild]
    dsimp only
    rw [ih below, List.map_append, List.append_assoc, List.map_map]
    rfl

/-- What is open at a part of a node is what is open at the node, and perhaps its scope. -/
theorem scopesAt_part (reached : root.at? place = some node)
    (isChild : node.children[index]? = some child) :
    root.scopesAt (place ++ [index]) =
      (if node.holdsInScope index then [place] else []) ++ root.scopesAt place := by
  obtain ⟨kind, span, children⟩ := node
  have isHere : children[index]? = some child := isChild
  have atPart : child.scopesAt [] = [] := by
    cases child
    rfl
  rw [scopesAt_append [index] reached, scopesAt, isHere]
  dsimp only
  rw [atPart]
  split <;> simp

/-- A scope that is open at a place stands above it. -/
theorem exists_of_mem_scopesAt (isOpen : outer ∈ root.scopesAt place) :
    ∃ index rest node, place = outer ++ index :: rest ∧ root.at? outer = some node ∧
      node.holdsInScope index = true := by
  induction place generalizing root outer with
  | nil =>
    cases root
    cases isOpen
  | cons index rest ih =>
    obtain ⟨kind, span, children⟩ := root
    rw [scopesAt] at isOpen
    split at isOpen
    · next child isChild =>
      rcases List.mem_append.1 isOpen with isDeeper | isHere
      · obtain ⟨inner, isInner, rfl⟩ := List.mem_map.1 isDeeper
        obtain ⟨number, below, node, rfl, reached, holds⟩ := ih isInner
        exact ⟨number, below, node, rfl,
          at?_cons_eq_some_iff.2 ⟨child, isChild, reached⟩, holds⟩
      · split at isHere
        · next holds =>
          cases List.mem_singleton.1 isHere
          exact ⟨index, rest, _, rfl, at?_nil _, holds⟩
        · cases isHere
    · cases isOpen

theorem isPrefix_of_mem_scopesAt (isOpen : outer ∈ root.scopesAt place) : outer <+: place := by
  obtain ⟨index, rest, _, rfl, _⟩ := exists_of_mem_scopesAt isOpen
  exact List.prefix_append outer (index :: rest)

end Node

end Codemod
