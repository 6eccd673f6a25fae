import Codemod.Proofs.Scope.Layout

/-!
# How traces are woven

The trace of a node holds the traces of its parts, each of them once and in
the order of the parts.  Before them stands what the node does itself, between
them places are entered, and the scope that the node opens stands around some of
them.  `Woven` states this for a list of parts and a list of steps, and
`exists_woven` says it of every node; what follows about traces is proved by
induction on `Woven`, which has four cases instead of some fifty.
-/

namespace Codemod

namespace Trace

/--
Steps that hold the traces of parts, each once and in order, with places entered
between them and with scopes of the given openings around them.
-/
inductive Woven (opens : Opening → Prop) : List Part → List Step → Prop
  | nil : Woven opens [] []
  | enter {span : Span} {parts : List Part} {steps : List Step}
      (rest : Woven opens parts steps) : Woven opens parts (.enter span :: steps)
  | part {part : Part} {parts : List Part} {steps : List Step} (access : Access)
      (rest : Woven opens parts steps) :
      Woven opens (part :: parts) (part.2 access ++ steps)
  | scope {opening : Opening} {inside outside : List Part}
      {inner outer : List Step} (opened : opens opening)
      (within : Woven opens inside inner) (rest : Woven opens outside outer) :
      Woven opens (inside ++ outside) (inScope opening inner ++ outer)

variable {opens : Opening → Prop} {parts : List Part} {steps : List Step}

theorem Woven.append {first second : List Part} {steps more : List Step}
    (woven : Woven opens first steps) (rest : Woven opens second more) :
    Woven opens (first ++ second) (steps ++ more) := by
  induction woven with
  | nil => exact rest
  | enter _ ih => exact .enter ih
  | part access _ ih =>
    rw [List.append_assoc]
    exact .part access ih
  | scope opened within _ _ ih =>
    rw [List.append_assoc, List.append_assoc]
    exact .scope opened within ih

theorem Strung.woven {enters : Span → Prop} {uses : Nat → Access} {number : Nat}
    (strung : Strung enters uses number parts steps) :
    Woven opens parts steps := by
  induction strung with
  | nil => exact .nil
  | enter _ _ ih => exact .enter ih
  | part _ ih => exact .part _ ih

theorem woven_readAll (parts : List Part) : Woven opens parts (readAll parts) :=
  (strung_readAll (fun _ => rfl) parts 0 : Strung (fun _ => True) (fun _ => .read) _ _ _).woven

/-- A scope that is no function's. -/
def IsBare (opening : Opening) : Prop :=
  ∀ isArrow name shape, opening ≠ .function isArrow name shape

end Trace

namespace Node

open Trace

theorem parts_eq (form : ScopeForm) (children : List Node) :
    headParts form children ++ (scopeParts form children ++ tailParts form children) =
      parts children := by
  have inside : (parts children).take (form.start children) =
      ((parts children).take (form.stop children)).take (form.start children) := by
    rw [List.take_take, Nat.min_eq_left (form.start_le_stop children)]
  rw [headParts, scopeParts, tailParts, inside, ← List.append_assoc, List.take_append_drop,
    List.take_append_drop]

/--
What a node does itself comes first in its trace, and the traces of its parts are
woven into the rest.  A reference is left out: it is a single name, and parts of it
are not looked at.
-/
theorem exists_woven {kind : Kind} (notReference : ∀ name, kind ≠ .reference name) (span : Span)
    (children : List Node) (access : Access) :
    ∃ rest, (mk kind span children).trace access = (mk kind span children).arrival access ++ rest ∧
      Woven (fun opening => (mk kind span children).opening? = some opening) (parts children)
        rest := by
  cases isForm : kind.scopeForm? with
  | none =>
    obtain ⟨rest, trace, strung⟩ := exists_strung notReference isForm span children access
    exact ⟨rest, trace, strung.woven⟩
  | some form =>
    obtain ⟨opening, inside, layout⟩ := exists_layout isForm span children access
    refine ⟨_, by rw [layout.trace, List.append_assoc, List.append_assoc]; rfl, ?_⟩
    rw [← parts_eq form children]
    exact (woven_readAll _).append (.scope layout.isOpening layout.strung.woven (woven_readAll _))

/-- What a node notes is done in its course. -/
theorem notes_subset_trace (node : Node) (access : Access) :
    node.notes access ⊆ node.trace access := by
  obtain ⟨kind, span, children⟩ := node
  rcases kind.reference_cases with ⟨name, rfl⟩ | notReference
  · rw [trace_reference]
    exact List.Subset.refl _
  · obtain ⟨rest, trace, _⟩ := exists_woven notReference span children access
    rw [trace, arrival, List.append_assoc]
    exact List.subset_append_left _ _

theorem isBare_of_opening? (node : Node) (notFunction : node.kind.isFunction = false) :
    ∀ opening, node.opening? = some opening → IsBare opening := by
  rintro opening isOpening isArrow name shape rfl
  unfold opening? at isOpening
  split at isOpening
  case h_5 kind _ _ _ _ _ _ =>
    cases isForm : kind.scopeForm? <;> rw [isForm] at isOpening <;> cases isOpening
  all_goals first | (cases isOpening; done) | cases notFunction

/-- The trace of a function is what comes before its scope and then its scope. -/
theorem exists_trace_eq_inScope {kind : Kind} (isFunction : kind.isFunction = true)
    (span : Span) (children : List Node) :
    ∃ outer isArrow name inside, (∀ access, (mk kind span children).trace access = outer ++
        inScope (.function isArrow name (mk kind span children).shape?) inside) ∧
      (∀ step ∈ outer, step.isPlain = true) ∧
      Woven IsBare (parts children) inside ∧
      ∀ shape, (mk kind span children).shape? = some shape → shape.isArrow = isArrow := by
  have isForm : kind.scopeForm? = some .whole := by
    cases kind <;> first | rfl | cases isFunction
  obtain ⟨opening, inside, layout⟩ := exists_layout isForm span children .read
  have isOpening := layout.isOpening
  obtain ⟨trace, strung⟩ := layout.whole
  cases kind with
  | function form =>
    obtain rfl := Option.some.inj isOpening
    refine ⟨_, false, _, inside, fun access => (trace_eq_read rfl access).trans trace,
      isPlain_arrival _ _, strung.woven, fun shape isShape => ?_⟩
    obtain ⟨body, _, rfl⟩ := Option.map_eq_some_iff.1 isShape
    rfl
  | arrow isAsync hasExpressionBody =>
    obtain rfl := Option.some.inj isOpening
    refine ⟨_, true, none, inside, fun access => (trace_eq_read rfl access).trans trace,
      isPlain_arrival _ _, strung.woven, fun shape isShape => ?_⟩
    obtain ⟨body, _, rfl⟩ := Option.map_eq_some_iff.1 isShape
    cases hasExpressionBody <;> rfl
  | _ => cases isFunction

/-! ## Nodes -/

/-- The nodes of a tree in the order in which they are entered; a reference has no parts. -/
def nodes : Node → List Node :=
  fold fun kind span children =>
    mk kind span (children.map (·.1)) ::
      match kind with
      | .reference _ => []
      | _ => children.flatMap (·.2)

theorem nodes_reference (name : String) (span : Span) (children : List Node) :
    (mk (.reference name) span children).nodes = [mk (.reference name) span children] := by
  simp [nodes, Function.comp_def]

theorem nodes_mk {kind : Kind} (notReference : ∀ name, kind ≠ .reference name)
    (span : Span) (children : List Node) :
    (mk kind span children).nodes = mk kind span children :: children.flatMap nodes := by
  rw [nodes, fold_mk]
  split
  · exact absurd rfl (notReference _)
  · simp [List.flatMap_map, Function.comp_def]

/-- The functions of a tree that have bodies, in the order in which they are entered. -/
def functions (root : Node) : List Node :=
  root.nodes.filter fun node => node.body?.isSome

end Node

namespace Trace

variable {opens : Opening → Prop} {parts : List Part} {steps : List Step}

/-- What a part does is done. -/
theorem Woven.subset (woven : Woven opens parts steps) {part : Part}
    (member : part ∈ parts) : ∃ access, part.2 access ⊆ steps := by
  induction woven with
  | nil => cases member
  | enter _ ih =>
    obtain ⟨access, subset⟩ := ih member
    exact ⟨access, List.subset_cons_of_subset _ subset⟩
  | part access _ ih =>
    rcases List.mem_cons.1 member with rfl | isLater
    · exact ⟨access, List.subset_append_left _ _⟩
    · obtain ⟨access, subset⟩ := ih isLater
      exact ⟨access, List.subset_append_of_subset_right _ subset⟩
  | scope _ _ _ ihInside ihOutside =>
    rcases List.mem_append.1 member with isInside | isOutside
    · obtain ⟨access, subset⟩ := ihInside isInside
      refine ⟨access, fun step isStep => ?_⟩
      simp [Trace.inScope, subset isStep]
    · obtain ⟨access, subset⟩ := ihOutside isOutside
      exact ⟨access, List.subset_append_of_subset_right _ subset⟩

/-- What opens is a scope of the node itself or opens in one of its parts. -/
theorem Woven.opens_or_mem (woven : Woven opens parts steps) {opening : Opening}
    (member : .openScope opening ∈ steps) :
    opens opening ∨ ∃ part ∈ parts, ∃ access, .openScope opening ∈ part.2 access := by
  induction woven with
  | nil => cases member
  | enter _ ih => exact ih (by simpa using member)
  | part access _ ih =>
    rcases List.mem_append.1 member with isHere | isLater
    · exact Or.inr ⟨_, List.mem_cons_self, access, isHere⟩
    · refine (ih isLater).imp_right ?_
      rintro ⟨part, isPart, opens⟩
      exact ⟨part, List.mem_cons_of_mem _ isPart, opens⟩
  | scope opened _ _ ihInside ihOutside =>
    simp only [inScope, List.cons_append, List.append_assoc, List.nil_append, List.mem_cons,
      List.mem_append, Step.openScope.injEq, reduceCtorEq, false_or] at member
    rcases member with rfl | isInside | isOutside
    · exact Or.inl opened
    · refine (ihInside isInside).imp_right ?_
      rintro ⟨part, isPart, opens⟩
      exact ⟨part, List.mem_append_left _ isPart, opens⟩
    · refine (ihOutside isOutside).imp_right ?_
      rintro ⟨part, isPart, opens⟩
      exact ⟨part, List.mem_append_right _ isPart, opens⟩

/-! ## Balance -/

/-- Steps that close every scope that they open and no other. -/
inductive Balanced : List Step → Prop
  | nil : Balanced []
  | step {step : Step} {steps : List Step} (plain : step.isPlain = true)
      (rest : Balanced steps) : Balanced (step :: steps)
  | scope {opening : Opening} {inner outer : List Step} (within : Balanced inner)
      (rest : Balanced outer) : Balanced (inScope opening inner ++ outer)

theorem Balanced.append {more : List Step} (balanced : Balanced steps)
    (rest : Balanced more) : Balanced (steps ++ more) := by
  induction balanced with
  | nil => exact rest
  | step plain _ ih => exact .step plain ih
  | scope within _ _ ih =>
    rw [List.append_assoc]
    exact .scope within ih

theorem Balanced.inScope (balanced : Balanced steps) (opening : Opening) :
    Balanced (Trace.inScope opening steps) := by
  rw [← List.append_nil (Trace.inScope opening steps)]
  exact .scope balanced .nil

theorem balanced_of_plain (plain : ∀ step ∈ steps, step.isPlain = true) : Balanced steps := by
  induction steps with
  | nil => exact .nil
  | cons step rest ih =>
    apply Balanced.step (plain step List.mem_cons_self)
    apply ih
    intro other member
    exact plain other (List.mem_cons_of_mem _ member)

theorem Woven.balanced (woven : Woven opens parts steps)
    (each : ∀ part ∈ parts, ∀ access, Balanced (part.2 access)) : Balanced steps := by
  induction woven with
  | nil => exact .nil
  | enter _ ih => exact .step rfl (ih each)
  | part access _ ih =>
    apply (each _ List.mem_cons_self access).append
    apply ih
    intro part member
    exact each part (List.mem_cons_of_mem _ member)
  | scope _ _ _ ihInside ihOutside =>
    apply Balanced.scope
    · apply ihInside
      intro part member
      exact each part (List.mem_append_left _ member)
    · apply ihOutside
      intro part member
      exact each part (List.mem_append_right _ member)

end Trace

namespace Node

open Trace

theorem balanced_trace (node : Node) (access : Access) : Balanced (node.trace access) := by
  induction node using Node.induction generalizing access with
  | step kind span children ih =>
    rcases kind.reference_cases with ⟨name, rfl⟩ | notReference
    · rw [trace_reference]
      exact .step rfl .nil
    · obtain ⟨rest, trace, woven⟩ := exists_woven notReference span children access
      rw [trace]
      refine (balanced_of_plain (isPlain_arrival _ access)).append
        (woven.balanced fun part member access => ?_)
      obtain ⟨child, isChild, rfl⟩ := List.mem_map.1 member
      exact ih child isChild access

theorem balanced_of_children {children : List Node} {steps : List Step}
    (woven : Woven IsBare (parts children) steps) : Balanced steps := by
  refine woven.balanced fun part member access => ?_
  obtain ⟨child, _, rfl⟩ := List.mem_map.1 member
  exact child.balanced_trace access

theorem exists_trace_subset_of_children {opens : Opening → Prop} {children : List Node}
    {steps : List Step} (woven : Woven opens (parts children) steps) {child : Node}
    (member : child ∈ children) : ∃ access, child.trace access ⊆ steps :=
  woven.subset (List.mem_map_of_mem member)

/-- What a part of a node does is done in the course of the node. -/
theorem exists_trace_subset_of_child {kind : Kind}
    (notReference : ∀ name, kind ≠ .reference name) (span : Span) {children : List Node}
    {child : Node} (member : child ∈ children) (access : Access) :
    ∃ used, child.trace used ⊆ (mk kind span children).trace access := by
  obtain ⟨rest, trace, woven⟩ := exists_woven notReference span children access
  obtain ⟨used, subset⟩ := exists_trace_subset_of_children woven member
  exact ⟨used, trace ▸ List.subset_append_of_subset_right _ subset⟩

/-- The first part of a node that opens no scope is used as the node says. -/
theorem first_subset_trace (kind : Kind) {span : Span} {first : Node} {rest : List Node}
    (notReference : ∀ name, kind ≠ .reference name) (noForm : kind.scopeForm? = none)
    (access : Access) :
    first.trace (kind.passes access 0) ⊆ (mk kind span (first :: rest)).trace access := by
  obtain ⟨steps, trace, strung⟩ := exists_strung notReference noForm span (first :: rest) access
  rw [trace]
  exact List.subset_append_of_subset_right _ strung.first_subset

/-- What a node of a tree does is done in the course of the whole tree. -/
theorem exists_trace_subset {node inner : Node} (member : inner ∈ node.nodes)
    (access : Access) : ∃ used, inner.trace used ⊆ node.trace access := by
  induction node using Node.induction generalizing access with
  | step kind span children ih =>
    rcases kind.reference_cases with ⟨name, rfl⟩ | notReference
    · rw [nodes_reference, List.mem_singleton] at member
      exact ⟨access, member ▸ List.Subset.refl _⟩
    · rw [nodes_mk notReference, List.mem_cons] at member
      rcases member with rfl | isDeeper
      · exact ⟨access, List.Subset.refl _⟩
      · obtain ⟨child, isChild, isInner⟩ := List.mem_flatMap.1 isDeeper
        obtain ⟨outer, subset⟩ := exists_trace_subset_of_child notReference span isChild access
        obtain ⟨used, innerSubset⟩ := ih child isChild isInner outer
        exact ⟨used, List.Subset.trans innerSubset subset⟩

end Node

end Codemod
