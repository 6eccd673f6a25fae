import Codemod.Proofs.Scope.Settling

/-!
# The layout of traces

What a node does itself comes first in its trace: it notes what it declares or
uses, and it is entered.  The traces of its parts follow in order, and if the
node opens a scope, the scope lies around some of them.  `ScopeForm` says around
which, `Node.opening?` says which scope it is and `Node.notes` says what is
noted.  `exists_layout` and `exists_strung` go through the kinds of nodes;
nothing that follows from them has to do so again.
-/

namespace Codemod

/-- Whether a step neither opens nor closes a scope. -/
def Step.isPlain : Step → Bool
  | .openScope _ => false
  | .closeScope => false
  | _ => true

/-- Whether a node of this kind is a function. -/
def Kind.isFunction : Kind → Bool
  | .function _ => true
  | .arrow _ _ => true
  | _ => false

theorem Kind.reference_cases (kind : Kind) :
    (∃ name, kind = .reference name) ∨ ∀ name, kind ≠ .reference name :=
  (Classical.em _).imp_right not_exists.1

/-- Which parts of a node stand in the scope that the node opens. -/
inductive ScopeForm where
  /-- All of them. -/
  | whole
  /-- All but the first, which is a name or the value that a `switch` compares. -/
  | afterFirst
  /-- The second and the third of the four parts of a conditional type. -/
  | branch
  /-- All that follow the decorators and the name of a class. -/
  | afterHead
  deriving DecidableEq, Repr

namespace Kind

/-- Which parts of a node of this kind stand in a scope of its own, if it has one. -/
def scopeForm? : Kind → Option ScopeForm
  | program => some .whole
  | block => some .whole
  | forStatement => some .whole
  | forIn => some .whole
  | forOf => some .whole
  | catchClause => some .whole
  | staticBlock => some .whole
  | function _ => some .whole
  | arrow _ _ => some .whole
  | typeForm .mapped => some .whole
  | typeForm .function => some .whole
  | typeForm .constructor => some .whole
  | signature .method => some .whole
  | signature .construct => some .whole
  | switchStatement => some .afterFirst
  | typeAlias => some .afterFirst
  | interfaceDeclaration => some .afterFirst
  | enumDeclaration => some .afterFirst
  | namespaceDeclaration => some .afterFirst
  | typeForm .conditional => some .branch
  | classDefinition _ => some .afterHead
  | _ => none

/-- How a part of a node of this kind is used, by its number and by how the node is used. -/
def passes (kind : Kind) (access : Access) (index : Nat) : Access :=
  match kind with
  | target => .write
  | targetShorthand => if index = 0 then .write else .read
  | unary .delete => .delete
  | parenthesized => if index = 0 then access else .read
  | _ => .read

theorem passes_of_scopeForm? {kind : Kind} {form : ScopeForm}
    (isForm : kind.scopeForm? = some form) (access : Access) (index : Nat) :
    kind.passes access index = .read := by
  unfold scopeForm? at isForm
  split at isForm
  all_goals first | rfl | cases isForm

/-- Whether a part of a class of this kind stands before the scope of the class. -/
def precedesScope : Kind → Bool
  | decorator => true
  | binding _ => true
  | _ => false

/-- Whether a node of this kind is a class. -/
def isClass : Kind → Bool
  | classDefinition _ => true
  | _ => false

end Kind

namespace ScopeForm

/-- The number of parts before the scope. -/
def start (form : ScopeForm) (children : List Node) : Nat :=
  match form with
  | whole => 0
  | afterFirst => min 1 children.length
  | branch => min 1 children.length
  | afterHead => (children.takeWhile fun child => child.kind.precedesScope).length

/-- The number of parts before the end of the scope. -/
def stop (form : ScopeForm) (children : List Node) : Nat :=
  match form with
  | branch => min 3 children.length
  | _ => children.length

theorem start_le_stop (form : ScopeForm) (children : List Node) :
    form.start children ≤ form.stop children := by
  cases form with
  | whole => exact Nat.zero_le _
  | afterFirst => exact Nat.min_le_right _ _
  | branch =>
    rw [start, stop]
    omega
  | afterHead => exact (List.takeWhile_sublist _).length_le

theorem stop_le_length (form : ScopeForm) (children : List Node) :
    form.stop children ≤ children.length := by
  cases form with
  | branch => exact Nat.min_le_right _ _
  | _ => exact Nat.le_refl _

end ScopeForm

namespace Node

open Trace

/-- The body of a function. -/
def body? : Node → Option Node
  | mk (.function _) _ children => functionBody? children
  | mk (.arrow _ true) _ children => children.getLast?
  | mk (.arrow _ false) _ children => functionBody? children
  | _ => none

/-- The shape of a function that has a body. -/
def shape? (node : Node) : Option FunctionShape :=
  node.body?.map fun body =>
    match node.kind with
    | .arrow _ true => expressionShape node.span body
    | .arrow _ false => blockShape node.span true body
    | _ => blockShape node.span false body

theorem isSome_shape? (node : Node) : node.shape?.isSome = node.body?.isSome :=
  Option.isSome_map

theorem shape?_eq_none {kind : Kind} (span : Span) (children : List Node)
    (notFunction : kind.isFunction = false) : (mk kind span children).shape? = none := by
  cases kind <;> first | rfl | cases notFunction

theorem isFunction_of_shape? {node : Node} {shape : FunctionShape}
    (isShape : node.shape? = some shape) : node.kind.isFunction = true := by
  obtain ⟨kind, span, children⟩ := node
  cases isFunction : kind.isFunction with
  | true => exact isFunction
  | false =>
    rw [shape?_eq_none span children isFunction] at isShape
    cases isShape

/-- Whether the name of a function is declared around it and not inside it. -/
def isDeclared (form : FunctionForm) (children : List Node) : Bool :=
  form.role == .declaration && (functionBody? children).isSome

/-- The name that a function declares inside itself. -/
def innerName? (form : FunctionForm) (children : List Node) : Option (String × Span) :=
  if isDeclared form children then none else givenName? children

/-- What the scope of a node is opened as, if the node opens one. -/
def opening? (node : Node) : Option Opening :=
  match node with
  | mk .program _ _ => some .text
  | mk .staticBlock _ _ => some .staticBlock
  | mk (.function form) _ children =>
    some (.function false (innerName? form children) node.shape?)
  | mk (.arrow _ _) _ _ => some (.function true none node.shape?)
  | mk kind _ _ => kind.scopeForm?.map fun _ => .block

theorem opening?_eq_none {node : Node} (noForm : node.kind.scopeForm? = none) :
    node.opening? = none := by
  unfold opening?
  split
  case h_5 kind _ _ _ _ _ _ =>
    rw [kind_mk] at noForm
    rw [noForm]
    rfl
  all_goals cases noForm

/-- What a node declares and uses by itself, in the order of its trace. -/
def notes (node : Node) (access : Access) : List Step :=
  match node with
  | mk (.reference name) span _ => [.reference name span access]
  | mk (.member _ _) span _ => node.chain?.toList.map fun chain => .member chain span access
  | mk (.call _) span _ => if node.isSuperCall then [.superCall span] else []
  | mk (.function form) _ children =>
    if isDeclared form children then declareGiven .both .function children else []
  | mk (.classDefinition _) span children =>
    declareGiven .innermost .classDefinition children ++ [.expectClass span]
  | mk .parameters _ children => declareParameters children
  | mk .catchParameter _ children =>
    children.flatMap (declarePattern .innermost .catchParameter none)
  | mk (.importDeclaration _ _) _ children => declareImports children
  | mk (.variableList keyword) _ children => declareVariables keyword children
  | _ => []

/-- What the steps are that a node notes. -/
inductive IsNotedBy (node : Node) (access : Access) : Step → Prop
  | declare {reach : Reach} {name : String} {site : Site}
      (isFixed : (∀ keyword, node.kind ≠ .variableList keyword) → site.kind.isVariable = false) :
      IsNotedBy node access (.declare reach name site)
  | reference {name : String} (isName : node.kind = .reference name) :
      IsNotedBy node access (.reference name node.span access)
  | member {chain : MemberChain} {property : String} {isOptional : Bool}
      (isMember : node.kind = .member property isOptional) :
      IsNotedBy node access (.member chain node.span access)
  | superCall : IsNotedBy node access (.superCall node.span)
  | expectClass (isClass : node.kind.isClass = true) :
      IsNotedBy node access (.expectClass node.span)

variable {node : Node} {access : Access} {kind : DeclarationKind} {reach : Reach}

theorem isNotedBy_declarePattern {declarator : Option DeclaratorInfo} {pattern : Node}
    (isFixed : (∀ keyword, node.kind ≠ .variableList keyword) → kind.isVariable = false) :
    ∀ step ∈ declarePattern reach kind declarator pattern, node.IsNotedBy access step := by
  intro step member
  obtain ⟨entry, _, rfl⟩ := List.mem_map.1 member
  exact .declare isFixed

theorem isNotedBy_declareGiven {children : List Node} (isFixed : kind.isVariable = false) :
    ∀ step ∈ declareGiven reach kind children, node.IsNotedBy access step := by
  intro step member
  obtain ⟨entry, _, rfl⟩ := List.mem_map.1 member
  exact .declare fun _ => isFixed

theorem isNotedBy_declareName {name : Node} (isFixed : kind.isVariable = false) :
    ∀ step ∈ declareName reach kind name, node.IsNotedBy access step := by
  unfold declareName
  split
  · rintro step member
    rw [List.mem_singleton.1 member]
    exact .declare fun _ => isFixed
  · exact List.forall_mem_nil _

theorem isNotedBy_notes (node : Node) (access : Access) :
    ∀ step ∈ node.notes access, node.IsNotedBy access step := by
  intro step member
  unfold notes at member
  split at member
  case h_1 =>
    rw [List.mem_singleton.1 member]
    exact .reference rfl
  case h_2 =>
    obtain ⟨chain, _, rfl⟩ := List.mem_map.1 member
    exact .member rfl
  case h_3 =>
    split at member
    · rw [List.mem_singleton.1 member]
      exact .superCall
    · cases member
  case h_4 =>
    split at member
    · exact isNotedBy_declareGiven rfl step member
    · cases member
  case h_5 =>
    rcases List.mem_append.1 member with isGiven | isLast
    · exact isNotedBy_declareGiven rfl step isGiven
    · rw [List.mem_singleton.1 isLast]
      exact .expectClass rfl
  case h_6 =>
    obtain ⟨pattern, _, isStep⟩ := List.mem_flatMap.1 member
    exact isNotedBy_declarePattern (fun _ => rfl) step isStep
  case h_7 =>
    obtain ⟨pattern, _, isStep⟩ := List.mem_flatMap.1 member
    exact isNotedBy_declarePattern (fun _ => rfl) step isStep
  case h_8 =>
    obtain ⟨part, _, isStep⟩ := List.mem_flatMap.1 member
    split at isStep
    case h_4 => cases isStep
    all_goals exact isNotedBy_declareName rfl step isStep
  case h_9 =>
    obtain ⟨part, _, isStep⟩ := List.mem_flatMap.1 member
    split at isStep
    · exact isNotedBy_declarePattern (fun notVariables => absurd rfl (notVariables _)) step isStep
    · cases isStep
  case h_10 => cases member

theorem isPlain_notes (node : Node) (access : Access) :
    ∀ step ∈ node.notes access, step.isPlain = true := by
  intro step member
  cases isNotedBy_notes node access step member <;> rfl

theorem isPlain_enterNode (kind : Kind) (span : Span) :
    ∀ step ∈ enterNode kind span, step.isPlain = true := by
  intro step member
  rw [enterNode] at member
  split at member
  · rw [List.mem_singleton] at member
    rw [member]
    rfl
  · cases member

/-- What comes before the parts of a node and before its scope. -/
def arrival (node : Node) (access : Access) : List Step :=
  node.notes access ++ enterNode node.kind node.span

theorem isPlain_arrival (node : Node) (access : Access) :
    ∀ step ∈ node.arrival access, step.isPlain = true := by
  intro step member
  rcases List.mem_append.1 member with isNote | isEntered
  · exact node.isPlain_notes access step isNote
  · exact isPlain_enterNode _ _ step isEntered

end Node

namespace Trace

/--
The traces of parts one after the other, with nothing but places entered between them.
Each part is used as its number says.
-/
inductive Strung (enters : Span → Prop) (uses : Nat → Access) :
    Nat → List Part → List Step → Prop
  | nil {number : Nat} : Strung enters uses number [] []
  | enter {number : Nat} {span : Span} {parts : List Part} {steps : List Step}
      (isPlace : enters span) (rest : Strung enters uses number parts steps) :
      Strung enters uses number parts (.enter span :: steps)
  | part {number : Nat} {part : Part} {parts : List Part} {steps : List Step}
      (rest : Strung enters uses (number + 1) parts steps) :
      Strung enters uses number (part :: parts) (part.2 (uses number) ++ steps)

variable {enters : Span → Prop} {uses : Nat → Access} {number : Nat} {parts : List Part}
  {steps : List Step}

theorem Strung.append {first second : List Part} {steps more : List Step}
    (strung : Strung enters uses number first steps)
    (rest : ∀ number, Strung enters uses number second more) :
    Strung enters uses number (first ++ second) (steps ++ more) := by
  induction strung with
  | nil => exact rest _
  | enter isPlace _ ih => exact .enter isPlace ih
  | part _ ih =>
    rw [List.append_assoc]
    exact .part ih

theorem Strung.first_subset {part : Part}
    (strung : Strung enters uses number (part :: parts) steps) : part.2 (uses number) ⊆ steps := by
  generalize isList : part :: parts = all at strung
  induction strung with
  | nil => cases isList
  | enter _ _ ih => exact List.subset_cons_of_subset _ (ih isList)
  | part _ _ =>
    cases isList
    exact List.subset_append_left _ _

theorem strung_readAll (reads : ∀ index, uses index = .read) (parts : List Part)
    (number : Nat) : Strung enters uses number parts (readAll parts) := by
  induction parts generalizing number with
  | nil => exact .nil
  | cons part rest ih =>
    have strung : Strung enters uses number (part :: rest) (part.2 (uses number) ++ _) :=
      .part (ih (number + 1))
    rw [reads] at strung
    exact strung

/-- The places that a node with these parts enters. -/
def IsPlaceIn (span : Span) (parts : List Part) (place : Span) : Prop :=
  place = span ∨ ∃ part ∈ parts, place = part.1.span

end Trace

namespace Signals

open Codemod.Trace

/-- Signals of parts lead to the traces of the parts, strung together. -/
def Told (enters : Span → Prop) (uses : Nat → Access) (number : Nat) (parts : List Part)
    (signals : List Signal) : Prop :=
  ∃ steps, Tells .read signals steps ∧ Strung enters uses number (parts.map Part.strand) steps

variable {enters : Span → Prop} {uses : Nat → Access} {number : Nat} {parts : List Part}
  {signals : List Signal}

theorem told_nil : Told enters uses number [] [] := ⟨[], .nil, .nil⟩

theorem Told.enter {span : Span} (told : Told enters uses number parts signals)
    (isPlace : enters span) : Told enters uses number parts (.step (.enter span) :: signals) := by
  obtain ⟨steps, tells, strung⟩ := told
  exact ⟨_, tells.step _, .enter isPlace strung⟩

theorem Told.cons {part : Part} {own : List Signal}
    (tells : Tells .read own (part.1.trace (uses number)))
    (told : Told enters uses (number + 1) parts signals) :
    Told enters uses number (part :: parts) (own ++ signals) := by
  obtain ⟨steps, tellsRest, strung⟩ := told
  exact ⟨_, tells.append tellsRest, .part strung⟩

theorem Told.append {first second : List Part} {more : List Signal}
    (told : Told enters uses number first signals)
    (rest : ∀ number, Told enters uses number second more) :
    Told enters uses number (first ++ second) (signals ++ more) := by
  obtain ⟨steps, tells, strung⟩ := told
  obtain ⟨later, tellsLater, _⟩ := rest 0
  refine ⟨steps ++ later, tells.append tellsLater, ?_⟩
  rw [List.map_append]
  refine strung.append fun number => ?_
  obtain ⟨same, tellsSame, strungSame⟩ := rest number
  rw [tellsLater.unique tellsSame]
  exact strungSame

/-- Some parts, then the others. -/
theorem told_split (count : Nat) {first rest : List Signal}
    (toldFirst : Told enters uses number (parts.take count) first)
    (toldRest : ∀ number, Told enters uses number (parts.drop count) rest) :
    Told enters uses number parts (first ++ rest) := by
  have told := toldFirst.append toldRest
  rwa [List.take_append_drop] at told

/-- Parts that are all used in one way; the announcement does not outlast the part. -/
theorem told_used {access : Access} (clean : ∀ part ∈ parts, part.LeavesNothing)
    (same : ∀ index, number ≤ index → uses index = access) :
    Told enters uses number parts (used access parts) := by
  induction parts generalizing number with
  | nil => exact told_nil
  | cons part rest ih =>
    obtain ⟨first, others⟩ := List.forall_mem_cons.1 clean
    refine .cons ?_ (ih others fun index later => same index (Nat.le_of_succ_le later))
    rw [same number (Nat.le_refl _), ← List.append_nil (part.1.trace access)]
    exact (first.announced access).append Tells.nil.announce

theorem told_each (reads : ∀ index, number ≤ index → uses index = .read)
    (clean : ∀ part ∈ parts, part.LeavesNothing) : Told enters uses number parts (each parts) := by
  induction parts generalizing number with
  | nil => exact told_nil
  | cons part rest ih =>
    obtain ⟨first, others⟩ := List.forall_mem_cons.1 clean
    refine .cons ?_ (ih (fun index later => reads index (Nat.le_of_succ_le later)) others)
    rw [reads number (Nat.le_refl _)]
    exact first.read

theorem Told.withdraw (told : Told enters uses number parts signals) :
    Told enters uses number parts (signals ++ [.expectAccess .read]) := by
  obtain ⟨steps, tells, strung⟩ := told
  refine ⟨steps, ?_, strung⟩
  rw [← List.append_nil steps]
  exact tells.append Tells.nil.announce

section

variable (reads : ∀ index, uses index = .read)
include reads

theorem told_places (clean : ∀ part ∈ parts, part.LeavesNothing)
    (arePlaces : ∀ part ∈ parts, enters part.1.span) (number : Nat) :
    Told enters uses number parts (places parts) := by
  induction parts generalizing number with
  | nil => exact told_nil
  | cons part rest ih =>
    obtain ⟨first, others⟩ := List.forall_mem_cons.1 clean
    obtain ⟨isPlace, placesLeft⟩ := List.forall_mem_cons.1 arePlaces
    refine Told.enter (.cons ?_ (ih others placesLeft (number + 1))) isPlace
    rw [reads]
    exact first.read

variable (clean : ∀ part ∈ parts, part.LeavesNothing)
  (arePlaces : ∀ part ∈ parts, enters part.1.span)
include clean arePlaces

theorem told_placed : Told enters uses number parts
      (places (parts.take 1) ++ each (parts.drop 1)) :=
  told_split 1
    (told_places reads (fun _ member => clean _ (List.mem_of_mem_take member))
      (fun _ member => arePlaces _ (List.mem_of_mem_take member)) _)
    fun _ => told_each (fun index _ => reads index) fun _ member =>
      clean _ (List.mem_of_mem_drop member)

theorem told_applied : Told enters uses number parts
      (each (parts.take 1) ++ places (parts.drop 1)) :=
  told_split 1
    (told_each (fun index _ => reads index) fun _ member =>
      clean _ (List.mem_of_mem_take member))
    (told_places reads (fun _ member => clean _ (List.mem_of_mem_drop member))
      fun _ member => arePlaces _ (List.mem_of_mem_drop member))

theorem told_keyed (span : Span) :
    ∃ rest, keyed span parts = .step (.enter span) :: rest ∧
      Told enters uses number parts rest := by
  rw [keyed, List.append_assoc, List.cons_append]
  refine ⟨_, rfl, ?_⟩
  let isDecorator : Part → Bool := fun part => part.1.kind == .decorator
  have later : ∀ part ∈ parts.dropWhile isDecorator, part ∈ parts :=
    fun part member => List.dropWhile_subset _ member
  have keys : ∀ number, Told enters uses number
      ((parts.dropWhile isDecorator).take 1) _ :=
    told_places reads (fun part member => clean part (later part (List.mem_of_mem_take member)))
      fun part member => arePlaces part (later part (List.mem_of_mem_take member))
  have values : ∀ number, Told enters uses number
      ((parts.dropWhile isDecorator).drop 1) _ :=
    fun number => told_each (fun index _ => reads index) fun part member =>
      clean part (later part (List.mem_of_mem_drop member))
  have decorators : Told enters uses number (parts.takeWhile isDecorator) _ :=
    told_each (fun index _ => reads index) fun part member =>
      clean part (List.takeWhile_subset isDecorator member)
  have told := decorators.append fun number => told_split 1 (keys number) values
  rwa [List.takeWhile_append_dropWhile] at told

theorem told_arrowParts : Told enters uses number parts
      (each parts.dropLast ++ places parts.getLast?.toList) := by
  cases last : parts.getLast? with
  | none =>
    rw [List.getLast?_eq_none_iff.1 last]
    exact told_nil
  | some body =>
    obtain ⟨front, rfl⟩ := List.getLast?_eq_some_iff.1 last
    rw [List.dropLast_concat]
    refine Told.append (told_each (fun index _ => reads index) fun part member =>
      clean part (by simp [member]))
      (told_places reads (fun part member => clean part (by simp_all))
        fun part member => arePlaces part (by simp_all))

end

end Signals

namespace Node

open Codemod.Trace Codemod.Signals

variable {kind : Kind} {span : Span} {children : List Node}

/-- The parts of a node before its scope, in it and after it. -/
def headParts (form : ScopeForm) (children : List Node) : List Trace.Part :=
  (parts children).take (form.start children)

def scopeParts (form : ScopeForm) (children : List Node) : List Trace.Part :=
  ((parts children).take (form.stop children)).drop (form.start children)

def tailParts (form : ScopeForm) (children : List Node) : List Trace.Part :=
  (parts children).drop (form.stop children)

@[simp]
theorem map_strand (children : List Node) :
    (signalParts children).map Part.strand = parts children := by
  simp [signalParts, parts, Part.strand, Function.comp_def]

@[simp]
theorem length_parts (children : List Node) : (parts children).length = children.length :=
  List.length_map _

@[simp]
theorem length_signalParts (children : List Node) :
    (signalParts children).length = children.length :=
  List.length_map _

theorem take_min_length {α : Type} {items : List α} (same : items.length = children.length)
    (count : Nat) : items.take (min count children.length) = items.take count := by
  rw [← same, ← List.take_eq_take_min]

theorem drop_min_length {α : Type} {items : List α} (same : items.length = children.length)
    (count : Nat) : items.drop (min count children.length) = items.drop count := by
  rw [← same, ← List.drop_eq_drop_min]

theorem headParts_eq (form : ScopeForm) :
    headParts form children = parts (children.take (form.start children)) :=
  List.map_take.symm

theorem scopeParts_eq (form : ScopeForm) : scopeParts form children =
      parts ((children.take (form.stop children)).drop (form.start children)) := by
  rw [scopeParts, parts, parts, List.map_drop, List.map_take]

theorem tailParts_eq (form : ScopeForm) :
    tailParts form children = parts (children.drop (form.stop children)) :=
  List.map_drop.symm

variable {form : ScopeForm}

theorem scopeParts_of_stop (stops : form.stop children = children.length) :
    scopeParts form children = (parts children).drop (form.start children) := by
  rw [scopeParts, stops, List.take_of_length_le (Nat.le_of_eq (length_parts children))]

theorem tailParts_of_stop (stops : form.stop children = children.length) :
    tailParts form children = [] := by
  rw [tailParts, stops, List.drop_of_length_le (Nat.le_of_eq (length_parts children))]

theorem takeWhile_signalParts : (signalParts children).takeWhile precedesClassScope =
      (signalParts children).take (ScopeForm.afterHead.start children) := by
  have isStart : ScopeForm.afterHead.start children =
      ((signalParts children).takeWhile precedesClassScope).length := by
    rw [ScopeForm.start, signalParts, List.takeWhile_map, List.length_map]
    rfl
  rw [isStart]
  exact List.prefix_iff_eq_take.1 (List.takeWhile_prefix _)

theorem dropWhile_signalParts : (signalParts children).dropWhile precedesClassScope =
      (signalParts children).drop (ScopeForm.afterHead.start children) := by
  have whole : (signalParts children).takeWhile precedesClassScope ++
        (signalParts children).dropWhile precedesClassScope =
      (signalParts children).takeWhile precedesClassScope ++
        (signalParts children).drop (ScopeForm.afterHead.start children) := by
    rw [List.takeWhile_append_dropWhile, takeWhile_signalParts, List.take_append_drop]
  exact List.append_cancel_left whole

/-! ## Layouts -/

/-- A node that opens a scope notes things, is entered, and has the scope around some parts. -/
structure Layout (node : Node) (access : Access) (form : ScopeForm) (opening : Opening)
    (inside : List Step) : Prop where
  isOpening : node.opening? = some opening
  tells : Tells (node.taken access) node.signals
    (node.notes access ++ enterNode node.kind node.span ++
      readAll (headParts form node.children) ++ inScope opening inside ++
      readAll (tailParts form node.children))
  strung : Strung (IsPlaceIn node.span (parts node.children)) (fun _ => .read)
    (form.start node.children) (scopeParts form node.children) inside

theorem Layout.trace {node : Node} {access : Access} {opening : Opening} {inside : List Step}
    (layout : Layout node access form opening inside) :
    node.trace access = node.notes access ++ enterNode node.kind node.span ++
      readAll (headParts form node.children) ++ inScope opening inside ++
      readAll (tailParts form node.children) :=
  trace_eq layout.tells

/-- A scope around all parts of a node follows the arrival at the node. -/
theorem Layout.whole {node : Node} {access : Access} {opening : Opening} {inside : List Step}
    (layout : Layout node access .whole opening inside) :
    node.trace access = node.arrival access ++ inScope opening inside ∧
      Strung (IsPlaceIn node.span (parts node.children)) (fun _ => .read) 0
        (parts node.children) inside := by
  have strung := layout.strung
  rw [scopeParts_of_stop rfl] at strung
  refine ⟨?_, strung⟩
  rw [layout.trace, tailParts_of_stop rfl]
  simp [arrival, headParts, ScopeForm.start, readAll]

/-- The scope of a function takes up its shape and its name. -/
theorem layout_function {isArrow : Bool} {name : Option (String × Span)}
    {shape : Option FunctionShape} {inside : List Signal} {access : Access}
    (isOpening : (mk kind span children).opening? = some (.function isArrow name shape))
    (takesNone : (mk kind span children).taken access = .read)
    (isEntered : enterNode kind span = [.enter span])
    (isSignals : (mk kind span children).signals =
      ((mk kind span children).notes access).map .step ++
        ((name.toList.map fun entry => .expectName entry.1 entry.2) ++
          .expectFunction shape :: .step (.enter span) :: within (.openFunction isArrow) inside))
    (told : Told (IsPlaceIn span (parts children)) (fun _ => .read) 0 (signalParts children)
      inside) :
    ∃ steps, Layout (mk kind span children) access .whole (.function isArrow name shape)
      steps := by
  obtain ⟨steps, tells, strung⟩ := told
  refine ⟨steps, isOpening, ?_, ?_⟩
  · rw [takesNone, isSignals, tailParts_of_stop rfl, kind_mk, span_mk, isEntered]
    simpa [headParts, ScopeForm.start, readAll] using
      (tells.inFunction isArrow name shape span).map_step ((mk kind span children).notes access)
  · rw [map_strand] at strung
    rw [children_mk, scopeParts_of_stop rfl]
    exact strung

theorem arePlaces_signalParts :
    ∀ part ∈ signalParts children, IsPlaceIn span (parts children) part.1.span := by
  intro part member
  obtain ⟨child, isChild, rfl⟩ := List.mem_map.1 member
  exact Or.inr ⟨_, List.mem_map_of_mem isChild, rfl⟩

theorem signals_function (form : FunctionForm) (span : Span) (children : List Node) :
    Signals.function form span (signalParts children) =
      ((mk (.function form) span children).notes .read).map .step ++
        (((innerName? form children).toList.map fun entry => .expectName entry.1 entry.2) ++
          .expectFunction (mk (.function form) span children).shape? :: .step (.enter span) ::
            within (.openFunction false) (each (signalParts children))) := by
  rw [Signals.function, map_signalParts, notes, innerName?, isDeclared, Option.isSome_map]
  split <;> rfl

theorem signals_arrow (isAsync hasExpressionBody : Bool) (span : Span) (children : List Node) :
    Signals.arrow hasExpressionBody span (signalParts children) =
      .expectFunction (mk (.arrow isAsync hasExpressionBody) span children).shape? ::
        .step (.enter span) :: within (.openFunction true)
          (each (signalParts children).dropLast ++
            places (signalParts children).getLast?.toList) := by
  rw [Signals.arrow, map_signalParts]
  cases hasExpressionBody with
  | true => simp [shape?, body?, signalParts, Function.comp_def]
  | false => rfl

theorem signals_conditional (span : Span) (children : List Node) :
    assemble (.typeForm .conditional) span (signalParts children) =
      [.step (.enter span)] ++
        (each ((signalParts children).take (ScopeForm.branch.start children)) ++
          (inBlock (each (((signalParts children).take (ScopeForm.branch.stop children)).drop
            (ScopeForm.branch.start children))) ++
            each ((signalParts children).drop (ScopeForm.branch.stop children)))) := by
  have same := length_signalParts children
  have inside : ((signalParts children).take 3).drop (min 1 children.length) =
      ((signalParts children).drop 1).take 2 := by
    cases children with
    | nil => rfl
    | cons child rest => rw [Nat.min_eq_left (by simp), List.drop_take]
  rw [ScopeForm.start, ScopeForm.stop, take_min_length same, take_min_length same, inside,
    drop_min_length same]
  simp [assemble]

theorem signals_class (isDeclaration : Bool) (span : Span) (children : List Node) :
    Signals.classDefinition span (signalParts children) =
      ((mk (.classDefinition isDeclaration) span children).notes .read ++
          [Step.enter span]).map .step ++
        (each ((signalParts children).take (ScopeForm.afterHead.start children)) ++
          (inBlock (each (((signalParts children).take children.length).drop
            (ScopeForm.afterHead.start children))) ++
            each ((signalParts children).drop children.length))) := by
  have stops := Nat.le_of_eq (length_signalParts children)
  rw [List.take_of_length_le stops, List.drop_of_length_le stops, Signals.classDefinition,
    map_signalParts, takeWhile_signalParts, dropWhile_signalParts]
  simp [notes, each]

theorem strings_told {own : List Step} {rest : List Signal} {access : Access}
    (takesNone : (mk kind span children).taken access = .read)
    (isSignals : (mk kind span children).signals = own.map .step ++ rest)
    (told : Told (IsPlaceIn span (parts children)) (kind.passes access) 0
      (signalParts children) rest) :
    ∃ steps, Tells ((mk kind span children).taken access) (mk kind span children).signals
        (own ++ steps) ∧
      Strung (IsPlaceIn span (parts children)) (kind.passes access) 0 (parts children) steps := by
  obtain ⟨steps, tells, strung⟩ := told
  rw [map_strand] at strung
  rw [takesNone, isSignals]
  exact ⟨steps, tells.map_step own, strung⟩

section

variable (clean : ∀ child ∈ children, child.LeavesNothing)
include clean

theorem leaveNothing_signalParts : ∀ part ∈ signalParts children, part.LeavesNothing := by
  intro part member
  obtain ⟨child, isChild, rfl⟩ := List.mem_map.1 member
  exact clean child isChild

theorem tells_each {chosen : List Signals.Part} (subset : chosen ⊆ signalParts children) :
    Tells .read (each chosen) (readAll (chosen.map Part.strand)) := by
  induction chosen with
  | nil => exact .nil
  | cons part rest ih =>
    obtain ⟨isPart, others⟩ := List.cons_subset.1 subset
    exact (leaveNothing_signalParts clean part isPart).read.append (ih others)

/-- What the parts are told inside the scope settles the layout. -/
theorem layout_told {opening : Opening} {inside : List Signal} {access : Access}
    (isOpening : (mk kind span children).opening? = some opening)
    (takesNone : (mk kind span children).taken access = .read)
    (isSignals : (mk kind span children).signals =
      ((mk kind span children).notes access ++ enterNode kind span).map .step ++
        (each ((signalParts children).take (form.start children)) ++
          (within (.step (.openScope opening)) inside ++
            each ((signalParts children).drop (form.stop children)))))
    (told : Told (IsPlaceIn span (parts children)) (fun _ => .read) (form.start children)
      (((signalParts children).take (form.stop children)).drop (form.start children)) inside) :
    ∃ steps, Layout (mk kind span children) access form opening steps := by
  obtain ⟨steps, tells, strung⟩ := told
  refine ⟨steps, isOpening, ?_, ?_⟩
  · have head := tells_each clean (List.take_subset (form.start children) _)
    have tail := tells_each clean (List.drop_subset (form.stop children) _)
    have tellsAll := (head.append ((tells.inScope opening).append tail)).map_step
      ((mk kind span children).notes access ++ enterNode kind span)
    rw [List.map_take, map_strand, List.map_drop, map_strand] at tellsAll
    rw [takesNone, isSignals]
    simp only [List.append_assoc] at tellsAll ⊢
    exact tellsAll
  · rw [List.map_drop, List.map_take, map_strand] at strung
    exact strung

theorem layout_whole {opening : Opening} {inside : List Signal} {access : Access}
    (isOpening : (mk kind span children).opening? = some opening)
    (takesNone : (mk kind span children).taken access = .read)
    (isSignals : (mk kind span children).signals =
      ((mk kind span children).notes access ++ enterNode kind span).map .step ++
        within (.step (.openScope opening)) inside)
    (told : Told (IsPlaceIn span (parts children)) (fun _ => .read) 0 (signalParts children)
      inside) :
    ∃ steps, Layout (mk kind span children) access .whole opening steps := by
  have stops : (signalParts children).length ≤ children.length :=
    Nat.le_of_eq (length_signalParts children)
  have toldAll : Told (IsPlaceIn span (parts children)) (fun _ => .read) 0
      ((signalParts children).take children.length) inside := by
    rw [List.take_of_length_le stops]
    exact told
  refine layout_told clean isOpening takesNone (isSignals.trans ?_) toldAll
  change _ = _ ++ (_ ++ each ((signalParts children).drop children.length))
  rw [List.drop_of_length_le stops]
  exact congrArg _ (List.append_nil _).symm

theorem layout_afterFirst {access : Access}
    (isOpening : (mk kind span children).opening? = some .block)
    (takesNone : (mk kind span children).taken access = .read)
    (isSignals : (mk kind span children).signals =
      ((mk kind span children).notes access ++ enterNode kind span).map .step ++
        (each ((signalParts children).take 1) ++ inBlock (each ((signalParts children).drop 1)))) :
    ∃ steps, Layout (mk kind span children) access .afterFirst .block steps := by
  have same := length_signalParts children
  have stops := Nat.le_of_eq same
  refine layout_told clean isOpening takesNone (isSignals.trans ?_)
    (told_each (fun _ _ => rfl) ?_)
  · change _ = _ ++ (each ((signalParts children).take (min 1 children.length)) ++
      (inBlock (each (((signalParts children).take children.length).drop
        (min 1 children.length))) ++ each ((signalParts children).drop children.length)))
    rw [List.take_of_length_le stops, List.drop_of_length_le stops, take_min_length same,
      drop_min_length same]
    exact congrArg _ (congrArg _ (List.append_nil _).symm)
  · exact fun part member => leaveNothing_signalParts clean part
      (List.mem_of_mem_take (List.mem_of_mem_drop member))

theorem exists_layout_of_parts (isForm : kind.scopeForm? = some form) (access : Access) :
    ∃ opening inside, Layout (mk kind span children) access form opening inside := by
  have parts := leaveNothing_signalParts clean
  have signals := signals_mk kind span children
  unfold Kind.scopeForm? at isForm
  split at isForm
  all_goals cases isForm
  -- Most kinds have one of two layouts; the others follow in order.
  all_goals first
    | exact ⟨_, layout_whole clean rfl rfl signals (told_each (fun _ _ => rfl) parts)⟩
    | exact ⟨_, layout_afterFirst clean rfl rfl signals⟩
    | skip
  · exact ⟨_, layout_function rfl rfl rfl (signals.trans (signals_function _ span children))
      (told_each (fun _ _ => rfl) parts)⟩
  · exact ⟨_, layout_function rfl rfl rfl (signals.trans (signals_arrow _ _ span children))
      (told_arrowParts (fun _ => rfl) parts arePlaces_signalParts)⟩
  · obtain ⟨rest, isKeyed, told⟩ := told_keyed (fun _ => rfl) parts arePlaces_signalParts span
    refine ⟨_, layout_whole clean rfl rfl (signals.trans ?_) (told.enter (Or.inl rfl))⟩
    rw [← isKeyed]
    rfl
  · refine ⟨_, layout_told clean rfl rfl (signals.trans (signals_conditional span children))
      (told_each (fun _ _ => rfl) ?_)⟩
    exact fun part member => parts part (List.mem_of_mem_take (List.mem_of_mem_drop member))
  · refine ⟨_, layout_told clean rfl rfl (signals.trans (signals_class false span children))
      (told_each (fun _ _ => rfl) ?_)⟩
    exact fun part member => parts part (List.mem_of_mem_take (List.mem_of_mem_drop member))

theorem exists_strung_of_parts (notReference : ∀ name, kind ≠ .reference name)
    (noForm : kind.scopeForm? = none) (access : Access) :
    ∃ rest, Tells ((mk kind span children).taken access) (mk kind span children).signals
        ((mk kind span children).notes access ++ enterNode kind span ++ rest) ∧
      Strung (IsPlaceIn span (parts children)) (kind.passes access) 0 (parts children) rest := by
  have parts := leaveNothing_signalParts clean
  have signals := signals_mk kind span children
  cases kind
  all_goals try (rename TypeForm => form; cases form)
  all_goals try (rename SignatureForm => form; cases form)
  all_goals try (rename UnaryOperator => operator; cases operator)
  -- Most kinds have one of a few shapes; the others follow in order.
  all_goals first
    | exact strings_told rfl signals (told_each (fun _ _ => rfl) parts)
    | exact absurd rfl (notReference _)
    | (cases noForm; done)
    | exact strings_told rfl signals
        (told_placed (fun _ => rfl) parts arePlaces_signalParts)
    | exact strings_told rfl signals
        (told_applied (fun _ => rfl) parts arePlaces_signalParts)
    | exact strings_told rfl signals
        (told_places (fun _ => rfl) parts arePlaces_signalParts _)
    | exact strings_told rfl signals (told_used parts fun _ _ => rfl)
    | (obtain ⟨rest, isKeyed, told⟩ := told_keyed (fun _ => rfl) parts arePlaces_signalParts span
       exact strings_told rfl (signals.trans isKeyed) told)
    | exact strings_told rfl signals (told_each (fun _ _ => rfl) parts).withdraw
    | (refine strings_told rfl (signals.trans ?_) (told_each (fun _ _ => rfl) parts)
       simp [assemble, notes, enterNode, Kind.isEntered]
       done)
    | skip
  case member property isOptional =>
    have chain := tells_member (mk (.member property isOptional) span children).chain? span access
    have told := (tells_each clean (List.Subset.refl _)).step (.enter span)
    rw [map_strand] at told
    refine ⟨_, ?_, strung_readAll (fun _ => rfl) _ _⟩
    rw [signals, assemble, map_signalParts, List.append_assoc]
    exact chain.append told
  case call isOptional =>
    refine strings_told rfl (signals.trans ?_)
      (told_applied (fun _ => rfl) parts arePlaces_signalParts)
    simp only [assemble, notes, map_signalParts, List.append_assoc]
    split <;> rfl
  case parenthesized =>
    have later : ∀ index, 1 ≤ index → Kind.parenthesized.passes access index = .read :=
      fun index isLater => if_neg (Nat.ne_of_gt isLater)
    cases children with
    | nil => exact strings_told rfl signals told_nil
    | cons child rest =>
      obtain ⟨first, others⟩ := List.forall_mem_cons.1 clean
      obtain ⟨steps, tells, strung⟩ := told_each later (leaveNothing_signalParts others)
      rw [map_strand] at strung
      refine ⟨child.trace access ++ steps, ?_, .part strung⟩
      rw [signals]
      exact ((first access).append tells).step (.enter span)
  case targetShorthand =>
    have later : ∀ index, 1 ≤ index → Kind.targetShorthand.passes access index = .read :=
      fun index isLater => if_neg (Nat.ne_of_gt isLater)
    cases children with
    | nil => exact strings_told rfl signals told_nil
    | cons child rest =>
      obtain ⟨first, others⟩ := List.forall_mem_cons.1 parts
      refine strings_told rfl (signals.trans ?_)
        (.cons (first.announced .write) (told_each later others))
      simp [assemble, signalParts, notes, enterNode, Kind.isEntered]

end

/-- Whatever access is announced for a node, its signals leave nothing pending. -/
theorem leavesNothing (node : Node) : node.LeavesNothing := by
  induction node using Node.induction with
  | step kind span children ih =>
    refine leavesNothing_of_exists fun access => ?_
    rcases kind.reference_cases with ⟨name, rfl⟩ | notReference
    · exact ⟨_, tells_reference name span access⟩
    cases isForm : kind.scopeForm? with
    | some form =>
      obtain ⟨_, _, layout⟩ := exists_layout_of_parts ih isForm access
      exact ⟨_, layout.tells⟩
    | none =>
      obtain ⟨_, tells, _⟩ := exists_strung_of_parts ih notReference isForm access
      exact ⟨_, tells⟩

/-- A builder does the steps of a node as it is used, and takes up what is announced for it. -/
theorem foldl_hear (node : Node) {access : Access}
    (takes : node.takesAccess = true ∨ access = .read) (survey : Survey) :
    node.signals.foldl Builder.hear ⟨survey, ⟨none, none, access⟩⟩ =
      ⟨(node.trace access).foldl Survey.step survey, .nothing⟩ := by
  have tells := node.leavesNothing access
  rw [taken_eq takes] at tells
  rw [Builder.run_eq, tells]

theorem trace_reference (name : String) (span : Span) (children : List Node) (access : Access) :
    (mk (.reference name) span children).trace access = [.reference name span access] :=
  trace_eq (tells_reference name span access)

theorem trace_program (span : Span) (children : List Node) (access : Access) :
    (mk .program span children).trace access =
      .enter span :: inScope .text (readAll (parts children)) := by
  have tells := tells_each (fun child _ => child.leavesNothing)
    (List.Subset.refl (signalParts children))
  rw [map_strand] at tells
  refine trace_eq ?_
  rw [signals_mk]
  exact (tells.inScope .text).step (.enter span)

/-- Every node of a kind that opens a scope has a layout. -/
theorem exists_layout (isForm : kind.scopeForm? = some form) (span : Span) (children : List Node)
    (access : Access) :
    ∃ opening inside, Layout (mk kind span children) access form opening inside :=
  exists_layout_of_parts (fun child _ => child.leavesNothing) isForm access

/-- A node that opens no scope notes things, is entered, and has its parts strung together. -/
theorem exists_strung (notReference : ∀ name, kind ≠ .reference name)
    (noForm : kind.scopeForm? = none) (span : Span) (children : List Node) (access : Access) :
    ∃ rest, (mk kind span children).trace access =
        (mk kind span children).notes access ++ enterNode kind span ++ rest ∧
      Strung (IsPlaceIn span (parts children)) (kind.passes access) 0 (parts children) rest := by
  obtain ⟨rest, tells, strung⟩ :=
    exists_strung_of_parts (fun child _ => child.leavesNothing) notReference noForm access
  exact ⟨rest, trace_eq tells, strung⟩

end Node

end Codemod
