import Codemod.Proofs.Scope.Survey
import Codemod.Proofs.Tree.Nesting

/-!
# The recorded uses of member chains

A table records every use of a member chain in a tree, each once and in the
order of the tree: `members_ofProgram`.  The uses of a trace are those of the
traces of its parts, and only a member adds one of its own.
-/

namespace Codemod

/-- The use of a chain that a step records. -/
def Step.use? : Step → Option (MemberChain × Span)
  | .member chain span _ => some (chain, span)
  | _ => none

namespace Trace

/-- The uses of chains that steps record, in order. -/
def uses (steps : List Step) : List (MemberChain × Span) :=
  steps.filterMap Step.use?

@[simp]
theorem uses_append (first second : List Step) :
    uses (first ++ second) = uses first ++ uses second :=
  List.filterMap_append

/-- Woven steps record the uses of the parts, if these do not depend on how the parts are used. -/
theorem Woven.uses_eq {opens : Opening → Prop} {parts : List Part} {steps : List Step}
    (woven : Woven opens parts steps) {usesOf : Part → List (MemberChain × Span)}
    (each : ∀ part ∈ parts, ∀ access, uses (part.2 access) = usesOf part) :
    uses steps = parts.flatMap usesOf := by
  induction woven with
  | nil => rfl
  | enter _ ih => exact ih each
  | part access _ ih =>
    rw [uses_append, each _ List.mem_cons_self access,
      ih fun part member => each part (List.mem_cons_of_mem _ member)]
    rfl
  | scope _ _ _ ihInside ihOutside =>
    have inside := ihInside fun part member => each part (List.mem_append_left _ member)
    have outside := ihOutside fun part member =>
      each part (List.mem_append_right _ member)
    rw [uses_append, outside, List.flatMap_append, ← inside, inScope, uses_append]
    exact congrArg (· ++ _) (List.append_nil _)

end Trace

namespace Node

open Trace

/-- A node records its own use and no other. -/
theorem uses_arrival (node : Node) (access : Access) :
    Trace.uses (node.arrival access) = node.use?.toList := by
  have entered : Trace.uses (enterNode node.kind node.span) = [] := by
    rw [enterNode]
    split <;> rfl
  rw [arrival, uses_append, entered, List.append_nil]
  obtain ⟨kind, span, children⟩ := node
  by_cases isMember : ∃ property isOptional, kind = .member property isOptional
  · obtain ⟨property, isOptional, rfl⟩ := isMember
    rw [notes, use?]
    cases (mk (.member property isOptional) span children).chain? <;> rfl
  · have isUnused : (mk kind span children).use? = none := by
      rw [use?]
      split
      · next property isOptional same => exact absurd ⟨property, isOptional, same⟩ isMember
      · rfl
    rw [isUnused, Trace.uses, Option.toList_none, List.filterMap_eq_nil_iff]
    intro step isNote
    cases isNotedBy_notes _ access step isNote with
    | member isKind => exact absurd ⟨_, _, isKind⟩ isMember
    | _ => rfl

/-- The walk over a tree records its uses, however the tree is used itself. -/
theorem uses_trace (node : Node) (access : Access) :
    Trace.uses (node.trace access) = node.uses := by
  induction node using Node.induction generalizing access with
  | step kind span children ih =>
    rcases kind.reference_cases with ⟨name, rfl⟩ | notReference
    · rw [uses_reference, trace_reference]
      rfl
    · obtain ⟨rest, trace, woven⟩ := exists_woven notReference span children access
      have ofParts : ∀ part ∈ parts children, ∀ access,
          Trace.uses (part.2 access) = part.1.uses := by
        intro part member access
        obtain ⟨child, isChild, rfl⟩ := List.mem_map.1 member
        exact ih child isChild access
      rw [uses_mk notReference, trace, uses_append, uses_arrival, woven.uses_eq ofParts, parts,
        List.flatMap_map]

end Node

/-- The use that a recorded access is. -/
def MemberAccess.use (access : MemberAccess) : MemberChain × Span :=
  (access.chain, access.span)

namespace Survey

theorem members_step (survey : Survey) (step : Step) :
    (survey.step step).table.members.map MemberAccess.use =
      survey.table.members.map MemberAccess.use ++ step.use?.toList := by
  cases step with
  | member chain span access => exact List.map_append
  | declare reach name site =>
    rw [show (Step.declare reach name site).use? = none from rfl, Option.toList_none,
      List.append_nil]
    exact step_declare_induction reach name site rfl fun _ _ => id
  | _ => exact (List.append_nil _).symm

theorem members_run (survey : Survey) (steps : List Step) :
    (steps.foldl Survey.step survey).table.members.map MemberAccess.use =
      survey.table.members.map MemberAccess.use ++ Trace.uses steps := by
  induction steps generalizing survey with
  | nil => exact (List.append_nil _).symm
  | cons step rest ih =>
    rw [List.foldl_cons, ih, members_step, List.append_assoc]
    congr 1
    rw [Trace.uses, Trace.uses, List.filterMap_cons]
    cases step.use? <;> rfl

end Survey

/-- The members that a table records are the uses of chains in the tree, in order. -/
theorem ScopeTable.members_ofProgram (root : Node) :
    (ofProgram root).members.map MemberAccess.use = root.uses := by
  rw [ofProgram_eq, ofSteps, Survey.members_run, Node.uses_trace]
  rfl

theorem ScopeTable.use_mem_uses {root : Node} {access : MemberAccess}
    (member : access ∈ (ofProgram root).members) : access.use ∈ root.uses := by
  rw [← members_ofProgram]
  exact List.mem_map_of_mem member

end Codemod
