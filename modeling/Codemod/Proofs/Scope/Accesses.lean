import Codemod.Proofs.Scope.Formation
import Codemod.Proofs.Scope.Noting
import Codemod.Proofs.Tree.Nesting

/-!
# How names and chains are used

A table records the names and the chains of a tree, each once, in the innermost
scope at its place and with how it is used there.  How the node at a place is used
(`Node.accessAt`) is passed on from node to node on the way to it, and only
parentheses pass on what they are given: a node is assigned to if it is a target, and
deleted if it is the operand of `delete` (`accessAt_eq_iff`).
-/

namespace Codemod

open Trace ScopeTable

/-- A name or a chain that is used, with where it stands and how it is used. -/
structure Usage where
  what : String ⊕ MemberChain
  span : Span
  access : Access

/-- The use that a step records. -/
def Step.used? : Step → Option Usage
  | reference name span access => some ⟨.inl name, span, access⟩
  | member chain span access => some ⟨.inr chain, span, access⟩
  | _ => none

/-! ## Tables -/

/-- The use that a reference is, with its scope. -/
def Reference.entry (reference : Reference) : ScopeId × Usage :=
  (reference.scope, ⟨.inl reference.name, reference.span, reference.access⟩)

/-- The use that a member is, with its scope. -/
def MemberAccess.entry (member : MemberAccess) : ScopeId × Usage :=
  (member.scope, ⟨.inr member.chain, member.span, member.access⟩)

/-- The uses that a table has recorded, each with its scope. -/
def ScopeTable.recorded (table : ScopeTable) : List (ScopeId × Usage) :=
  table.references.map Reference.entry ++ table.members.map MemberAccess.entry

namespace Survey

variable {survey : Survey} {step : Step}

/-- A step records its use in the innermost scope. -/
theorem recorded_step (plain : step.isPlain = true) : (survey.step step).table.recorded.Perm
      (survey.table.recorded ++ step.used?.toList.map fun use => (survey.current, use)) := by
  cases step with
  | openScope opening => cases plain
  | closeScope => cases plain
  | reference name span access =>
    simp only [Survey.step, recorded, List.map_append, List.append_assoc]
    exact List.perm_append_comm.append_left _
  | member chain span access =>
    simp only [Survey.step, recorded, List.map_append, List.append_assoc]
    exact List.Perm.refl _
  | declare reach name site =>
    have same : (survey.step (.declare reach name site)).table.recorded =
        survey.table.recorded := by
      cases reach with
      | both =>
        rw [Survey.step]
        split <;> rfl
      | _ => rfl
    simp [Step.used?, same]
  | _ => simp [Step.used?, Survey.step, recorded]

end Survey

namespace ScopeTable

theorem recorded_openScope (survey : Survey) (opening : Opening) :
    (survey.openScope opening).table.recorded = survey.table.recorded := by
  rw [Survey.openScope_table]
  rfl

/-- The view of the uses. -/
def View.uses : View Usage where
  read := fun table id => (table.recorded.filter fun entry => entry.1 == id).map (·.2)
  gives := fun step => step.used?.toList.map fun use => (.innermost, use)
  born := fun _ => []
  read_empty := fun _ => rfl
  gives_enter := fun _ => rfl
  read_step := fun {survey step} plain _ id => by
    refine (((Survey.recorded_step plain).filter _).map _).trans (List.Perm.of_eq ?_)
    rw [List.filter_append, List.map_append]
    cases step.used? with
    | none => rfl
    | some use => cases isHere : survey.current == id <;> simp [isHere, Survey.reaches]
  read_openScope := fun survey opening id => by
    rw [recorded_openScope, ite_self, List.append_nil]

end ScopeTable

/-! ## Trees -/

namespace Node

variable {root node : Node} {place : Place} {index : Nat} {access : Access}

/-- The use that a node is, if it is a name or a chain. -/
def used? (node : Node) (access : Access) : Option Usage :=
  match node.kind with
  | .reference name => some ⟨.inl name, node.span, access⟩
  | _ => node.use?.map fun use => ⟨.inr use.1, use.2, access⟩

theorem used?_eq_name_iff {name : String} {span : Span} {how : Access} :
    node.used? access = some ⟨.inl name, span, how⟩ ↔
      node.kind = .reference name ∧ node.span = span ∧ how = access := by
  unfold used?
  split
  · next isName => simp [isName, eq_comm]
  · next notName => exact iff_of_false (by simp) fun same => notName name same.1

theorem used?_eq_chain_iff {chain : MemberChain} {span : Span} {how : Access} :
    node.used? access = some ⟨.inr chain, span, how⟩ ↔
      node.use? = some (chain, span) ∧ how = access := by
  unfold used?
  split
  · next isName => simp [use?, isName]
  · rw [Option.map_eq_some_iff]
    constructor
    · rintro ⟨use, isUse, same⟩
      cases same
      exact ⟨isUse, rfl⟩
    · rintro ⟨isUse, rfl⟩
      exact ⟨_, isUse, rfl⟩

theorem filterMap_notes (node : Node) (access : Access) :
    (node.notes access).filterMap Step.used? = (node.used? access).toList := by
  obtain ⟨kind, span, children⟩ := node
  unfold used?
  split
  · next name isName =>
    obtain rfl : kind = .reference name := isName
    rfl
  · next notName =>
    unfold use?
    split
    · next property isOptional isMember =>
      obtain rfl : kind = .member property isOptional := isMember
      rw [notes]
      cases (mk (.member property isOptional) span children).chain? <;> rfl
    · next notMember =>
      refine List.filterMap_eq_nil_iff.2 fun step isStep => ?_
      cases isNotedBy_notes _ access step isStep with
      | reference isName => exact absurd isName (notName _)
      | member isMember => exact absurd isMember (notMember _ _)
      | _ => rfl

theorem ofNode_uses (node : Node) (access : Access) : View.uses.ofNode node access =
      (node.used? access).toList.map fun use => (some .innermost, use) := by
  have noted : (node.notes access).flatMap View.uses.gives =
      ((node.notes access).filterMap Step.used?).map fun use => (.innermost, use) := by
    rw [List.filterMap_eq_flatMap_toList, List.map_flatMap]
    rfl
  have notBorn : node.opening?.toList.flatMap View.uses.born = [] :=
    List.flatMap_eq_nil_iff.2 fun _ _ => rfl
  rw [View.ofNode, noted, notBorn, filterMap_notes, List.map_map, List.map_nil, List.append_nil]
  rfl

/-- The node at a place is used. -/
def usedAt (root : Node) (place : Place) (_ : Unit) (reach : Option Reach) (use : Usage) : Prop :=
  reach = some .innermost ∧
    ∃ node, root.at? place = some node ∧ node.used? (root.accessAt place) = some use

theorem isKnown_uses (root : Node) : View.uses.IsKnown root root.usedAt where
  isNode := fun ⟨_, node, reached, _⟩ => ⟨node, reached⟩
  enumerates := by
    intro place node reached
    rw [ofNode_uses]
    have only : ∀ {reach use}, root.usedAt place () reach use ↔
        reach = some .innermost ∧ node.used? (root.accessAt place) = some use := by
      simp [usedAt, reached]
    cases isUsed : node.used? (root.accessAt place) with
    | none =>
      refine .nil fun _ entry isOwn => ?_
      rw [only, isUsed] at isOwn
      cases isOwn.2
    | some use =>
      refine .singleton () fun _ entry => ?_
      rw [only, isUsed]
      simp [Prod.ext_iff, eq_comm]

end Node

namespace ScopeTable

variable {root : Node}

/-- The uses of a table are those of the tree, each in the innermost scope at its place. -/
theorem enumerates_recorded (isText : root.kind = .program) (shaped : root.isWellShaped = true) :
    Enumerates (fun place (entry : ScopeId × Usage) =>
        (∃ node, root.at? place = some node ∧
          node.used? (root.accessAt place) = some entry.2) ∧
        ∃ outer, root.openings[entry.1]? = some outer ∧ root.innermost? place = some outer)
      (ofProgram root).recorded := by
  have table := isTableOf_ofProgram isText
  have bounded : ∀ entry ∈ (ofProgram root).recorded, entry.1 < root.openings.length := by
    rw [← length_scopes_ofProgram shaped]
    intro entry isEntry
    rcases List.mem_append.1 isEntry with isReference | isMember
    · obtain ⟨reference, member, rfl⟩ := List.mem_map.1 isReference
      exact table.references reference member
    · obtain ⟨access, member, rfl⟩ := List.mem_map.1 isMember
      exact table.members access member
  refine .of_numbers (·.1) bounded ?_ ?_ ?_
  · rintro place entry ⟨_, outer, isPlace, _⟩
    exact (List.getElem?_eq_some_iff.1 isPlace).1
  · rintro place entry entry' ⟨_, outer, isPlace, isOuter⟩ ⟨_, other, isOther, isInner⟩
    obtain rfl := Option.some.inj (isOuter.symm.trans isInner)
    exact Survey.eq_of_getElem?_openings isPlace isOther
  · intro id inside
    have isPlace := List.getElem?_eq_getElem inside
    have listed := (View.enumerates_ofProgram root.isKnown_uses isText shaped isPlace).map
      fun use => (id, use)
    have same : ((View.uses.read (ofProgram root) id).map fun use => (id, use)) =
        (ofProgram root).recorded.filter fun entry => entry.1 == id := by
      change ((List.filter _ _).map _).map _ = _
      rw [List.map_map]
      refine (List.map_congr_left fun entry isEntry => ?_).trans (List.map_id _)
      exact Prod.ext (beq_iff_eq.1 (List.mem_filter.1 isEntry).2).symm rfl
    rw [same] at listed
    refine (listed.embed Prod.fst fun _ _ _ _ _ _ same => Prod.ext same rfl).congr
      fun place entry => ?_
    constructor
    · rintro ⟨⟨_, _⟩, rfl, use, ⟨reach, ⟨rfl, isUsed⟩, lands⟩, rfl⟩
      exact ⟨⟨isUsed, _, isPlace, beq_iff_eq.1 lands⟩, rfl⟩
    · rintro ⟨⟨isUsed, outer, isOuter, isInnermost⟩, rfl⟩
      obtain rfl := Option.some.inj (isPlace.symm.trans isOuter)
      exact ⟨(place, ()), rfl, entry.2, ⟨_, ⟨rfl, isUsed⟩, beq_iff_eq.2 isInnermost⟩, rfl⟩

end ScopeTable

namespace ScopeTable

variable {root : Node}

/-- The reference that a recorded use is, if it is one of a name. -/
def asReference? (entry : ScopeId × Usage) : Option Reference :=
  entry.2.what.getLeft?.map fun name => ⟨name, entry.2.span, entry.1, entry.2.access⟩

/-- The member that a recorded use is, if it is one of a chain. -/
def asMember? (entry : ScopeId × Usage) : Option MemberAccess :=
  entry.2.what.getRight?.map fun chain => ⟨chain, entry.2.span, entry.1, entry.2.access⟩

theorem asReference?_eq_some_iff {entry : ScopeId × Usage} {reference : Reference} :
    asReference? entry = some reference ↔ entry = reference.entry := by
  obtain ⟨scope, what, span, access⟩ := entry
  cases what <;> cases reference <;> simp [asReference?, Reference.entry, and_left_comm]

theorem asMember?_eq_some_iff {entry : ScopeId × Usage} {member : MemberAccess} :
    asMember? entry = some member ↔ entry = member.entry := by
  obtain ⟨scope, what, span, access⟩ := entry
  cases what <;> cases member <;> simp [asMember?, MemberAccess.entry, and_left_comm]

theorem filterMap_asReference? (table : ScopeTable) :
    table.recorded.filterMap asReference? = table.references := by
  simp [recorded, asReference?, Reference.entry, MemberAccess.entry, Function.comp_def]

theorem filterMap_asMember? (table : ScopeTable) :
    table.recorded.filterMap asMember? = table.members := by
  simp [recorded, asMember?, Reference.entry, MemberAccess.entry, Function.comp_def]

section

variable (isText : root.kind = .program) (shaped : root.isWellShaped = true)
include isText shaped

/-- The references of a table are the names of the tree. -/
theorem enumerates_references : Enumerates (fun place (reference : Reference) =>
      root.at? place = some (.mk (.reference reference.name) reference.span []) ∧
        reference.access = root.accessAt place ∧
        ∃ outer, root.openings[reference.scope]? = some outer ∧ root.innermost? place = some outer)
    (ofProgram root).references := by
  have listed := (enumerates_recorded isText shaped).filterMap asReference?
  rw [filterMap_asReference?] at listed
  refine listed.congr fun place reference => ?_
  simp only [asReference?_eq_some_iff, exists_eq_right, Reference.entry, Node.used?_eq_name_iff]
  constructor
  · rintro ⟨⟨node, reached, isName, isSpan, isAccess⟩, isInnermost⟩
    obtain ⟨kind, span, children⟩ := node
    obtain rfl : kind = _ := isName
    obtain rfl : span = _ := isSpan
    obtain rfl := Node.children_of_reference (Node.isWellShaped_at? shaped reached)
    exact ⟨reached, isAccess, isInnermost⟩
  · rintro ⟨reached, isAccess, isInnermost⟩
    exact ⟨⟨_, reached, rfl, rfl, isAccess⟩, isInnermost⟩

/-- The members of a table are the chains of the tree. -/
theorem enumerates_members : Enumerates (fun place (member : MemberAccess) =>
      (∃ node, root.at? place = some node ∧ node.use? = some (member.chain, member.span)) ∧
        member.access = root.accessAt place ∧
        ∃ outer, root.openings[member.scope]? = some outer ∧ root.innermost? place = some outer)
    (ofProgram root).members := by
  have listed := (enumerates_recorded isText shaped).filterMap asMember?
  rw [filterMap_asMember?] at listed
  refine listed.congr fun place member => ?_
  simp only [asMember?_eq_some_iff, exists_eq_right, MemberAccess.entry, Node.used?_eq_chain_iff]
  constructor
  · rintro ⟨⟨node, reached, isUse, isAccess⟩, isInnermost⟩
    exact ⟨⟨node, reached, isUse⟩, isAccess, isInnermost⟩
  · rintro ⟨⟨node, reached, isUse⟩, isAccess, isInnermost⟩
    exact ⟨⟨node, reached, isUse, isAccess⟩, isInnermost⟩

end

end ScopeTable

/-! ## Accesses -/

namespace Node

/-- A node stands, in parentheses or not, as a part of another node that has some kind. -/
inductive IsOperand (root : Node) (holds : Kind → Nat → Prop) : Place → Prop
  | part {place : Place} {node : Node} {index : Nat} (reached : root.at? place = some node)
      (isHeld : holds node.kind index) : IsOperand root holds (place ++ [index])
  | parenthesized {place : Place} {node : Node} (reached : root.at? place = some node)
      (isParenthesized : node.kind = .parenthesized) (operand : IsOperand root holds place) :
      IsOperand root holds (place ++ [0])

/--
The node at a place is assigned to: it is a target (of an assignment, an update,
a pattern or a loop), or the name of a shorthand target.
-/
def IsAssigned (root : Node) : Place → Prop :=
  root.IsOperand fun kind index => kind = .target ∨ kind = .targetShorthand ∧ index = 0

/-- The node at a place is deleted. -/
def IsDeleted (root : Node) : Place → Prop :=
  root.IsOperand fun kind _ => kind = .unary .delete

variable {root node : Node} {place : Place} {index : Nat} {access : Access}
  {holds : Kind → Nat → Prop}

theorem not_isOperand_nil : ¬ root.IsOperand holds [] := by
  generalize same : ([] : Place) = place
  rintro (_ | _)
  all_goals simp at same

theorem isOperand_part (reached : root.at? place = some node) :
    root.IsOperand holds (place ++ [index]) ↔
      holds node.kind index ∨
        (node.kind = .parenthesized ∧ index = 0) ∧ root.IsOperand holds place := by
  constructor
  · generalize same : place ++ [index] = whole
    rintro (⟨isOther, isHeld⟩ | ⟨isOther, isParenthesized, operand⟩)
    all_goals
      obtain ⟨rfl, rfl⟩ := List.append_singleton_inj.1 same
      obtain rfl := Option.some.inj (reached.symm.trans isOther)
    · exact Or.inl isHeld
    · exact Or.inr ⟨⟨isParenthesized, rfl⟩, operand⟩
  · rintro (isHeld | ⟨⟨isParenthesized, rfl⟩, operand⟩)
    · exact .part reached isHeld
    · exact .parenthesized reached isParenthesized operand

/-- A node is used in a way exactly if it is an operand of a node that uses its parts so. -/
theorem accessAt_eq_iff (notRead : access ≠ .read)
    (isHeld : ∀ (kind : Kind) outer index, kind.passes outer index = access ↔
      holds kind index ∨ (kind = .parenthesized ∧ index = 0) ∧ outer = access)
    (reached : root.at? place = some node) :
    root.accessAt place = access ↔ root.IsOperand holds place := by
  induction place using List.reverseRecOn generalizing node with
  | nil => exact iff_of_false (Ne.symm notRead) not_isOperand_nil
  | append_singleton outer index ih =>
    rw [at?_append] at reached
    obtain ⟨owner, isOwner, below⟩ := Option.bind_eq_some_iff.1 reached
    obtain ⟨kind, span, children⟩ := owner
    obtain ⟨child, isChild, _⟩ := at?_cons_eq_some_iff.1 below
    rw [accessAt, accessFrom_part _ isOwner isChild, isHeld, isOperand_part isOwner,
      ← ih isOwner]
    rfl

theorem accessAt_eq_write_iff (reached : root.at? place = some node) :
    root.accessAt place = .write ↔ root.IsAssigned place := by
  refine accessAt_eq_iff (by decide) (fun kind outer index => ?_) reached
  unfold Kind.passes
  split
  case h_4 => split <;> simp_all
  all_goals simp_all

theorem accessAt_eq_delete_iff (reached : root.at? place = some node) :
    root.accessAt place = .delete ↔ root.IsDeleted place := by
  refine accessAt_eq_iff (by decide) (fun kind outer index => ?_) reached
  unfold Kind.passes
  split
  case h_2 => split <;> simp
  case h_4 => split <;> simp_all
  all_goals simp_all

/-- How the node at a place is recorded: in which scope, and as what it is used. -/
structure IsRecorded (root : Node) (place : Place) (scope : ScopeId) (access : Access) : Prop where
  /-- The scope is the innermost one at the place. -/
  scope : ∃ outer, root.openings[scope]? = some outer ∧ root.innermost? place = some outer
  write_iff : access = .write ↔ root.IsAssigned place
  delete_iff : access = .delete ↔ root.IsDeleted place

theorem isRecorded_iff {scope : ScopeId} (reached : root.at? place = some node) :
    root.IsRecorded place scope access ↔ access = root.accessAt place ∧
      ∃ outer, root.openings[scope]? = some outer ∧ root.innermost? place = some outer := by
  have isWrite := accessAt_eq_write_iff reached
  have isDelete := accessAt_eq_delete_iff reached
  constructor
  · rintro ⟨isInnermost, write_iff, delete_iff⟩
    refine ⟨?_, isInnermost⟩
    rw [← isWrite] at write_iff
    rw [← isDelete] at delete_iff
    generalize root.accessAt place = found at write_iff delete_iff
    cases access <;> cases found <;> simp_all
  · rintro ⟨rfl, isInnermost⟩
    exact ⟨isInnermost, isWrite, isDelete⟩

end Node

namespace ScopeTable

variable {root : Node}

/--
Each name and each chain of a tree is recorded once, in the innermost scope at its
place.  It is written exactly if it is assigned to, deleted exactly if it is an
operand of `delete`, and never both.  No access reaches what stands in a member or a
value that stands beside a target: the access that is announced for a node is taken up
in the walk over the node.
-/
theorem uses_are_recorded_once (isText : root.kind = .program)
    (shaped : root.isWellShaped = true) :
    Enumerates (fun place (reference : Reference) =>
        root.at? place = some (.mk (.reference reference.name) reference.span []) ∧
          root.IsRecorded place reference.scope reference.access)
      (ofProgram root).references ∧
    Enumerates (fun place (member : MemberAccess) =>
        (∃ node, root.at? place = some node ∧ node.use? = some (member.chain, member.span)) ∧
          root.IsRecorded place member.scope member.access)
      (ofProgram root).members ∧
    (∀ place node, root.at? place = some node →
      ¬ (root.IsAssigned place ∧ root.IsDeleted place)) ∧
    (∀ place node index, root.at? place = some node →
      (∃ property isOptional, node.kind = .member property isOptional) ∨
        node.kind = .targetDefault ∨ node.kind = .targetShorthand ∧ 0 < index →
      ¬ root.IsAssigned (place ++ [index]) ∧ ¬ root.IsDeleted (place ++ [index])) ∧
    ∀ place node access survey, root.at? place = some node →
      node.takesAccess = true ∨ access = .read →
      (node.signals.foldl Builder.hear ⟨survey, ⟨none, none, access⟩⟩).pending = .nothing := by
  refine ⟨(enumerates_references isText shaped).congr fun place reference => ?_,
    (enumerates_members isText shaped).congr fun place member => ?_, ?_, ?_, ?_⟩
  · exact and_congr_right fun reached => (Node.isRecorded_iff reached).symm
  · exact and_congr_right fun ⟨_, reached, _⟩ => (Node.isRecorded_iff reached).symm
  · rintro place node reached ⟨isAssigned, isDeleted⟩
    rw [← Node.accessAt_eq_write_iff reached] at isAssigned
    rw [← Node.accessAt_eq_delete_iff reached, isAssigned] at isDeleted
    cases isDeleted
  · intro place node index reached isAround
    rw [Node.IsAssigned, Node.IsDeleted, Node.isOperand_part reached, Node.isOperand_part reached]
    rcases isAround with ⟨property, isOptional, isKind⟩ | isKind | ⟨isKind, isLater⟩
    · simp [isKind]
    · simp [isKind]
    · simp [isKind, Nat.ne_of_gt isLater]
  · intro place node access survey _ takes
    exact congrArg Builder.pending (node.foldl_hear takes survey)

/-- Assignments to a name, to shorthands and to members, a deletion, and what is only read. -/
def mixedUses : Option Program :=
  parseProgram .plain
    "x = 1; ({ z = d } = o); this.p.a = 1; () => delete (this.p.b); this.p.c;".toList

/-- What is assigned to and deleted in the sample is told apart from what is read. -/
theorem uses_are_recorded_once_in_mixedUses :
    ∃ program, mixedUses = some program ∧ program.root.kind = .program ∧
      program.root.isWellShaped = true ∧
      ((ofProgram program.root).references.map fun reference =>
        (reference.name, reference.scope, reference.access)) =
          [("x", 0, .write), ("z", 0, .write), ("d", 0, .read), ("o", 0, .read)] ∧
      ((ofProgram program.root).members.map fun member =>
        (member.chain.path, member.scope, member.access)) =
          [(["p", "a"], 0, .write), (["p"], 0, .read), (["p", "b"], 1, .delete), (["p"], 1, .read),
            (["p", "c"], 0, .read), (["p"], 0, .read)] ∧
      Enumerates (fun place (reference : Reference) =>
          program.root.at? place = some (.mk (.reference reference.name) reference.span []) ∧
            program.root.IsRecorded place reference.scope reference.access)
        (ofProgram program.root).references := by
  obtain ⟨program, parsed, shaped, references, members⟩ : ∃ program ∈ mixedUses,
      program.root.isWellShaped = true ∧
      ((ofProgram program.root).references.map fun reference =>
        (reference.name, reference.scope, reference.access)) =
          [("x", 0, .write), ("z", 0, .write), ("d", 0, .read), ("o", 0, .read)] ∧
      ((ofProgram program.root).members.map fun member =>
        (member.chain.path, member.scope, member.access)) =
          [(["p", "a"], 0, .write), (["p"], 0, .read), (["p", "b"], 1, .delete), (["p"], 1, .read),
            (["p", "c"], 0, .read), (["p"], 0, .read)] := by
    decide +kernel
  have isText := kind_of_parseProgram parsed
  exact ⟨program, parsed, isText, shaped, references, members,
    (uses_are_recorded_once isText shaped).1⟩

end ScopeTable

end Codemod
