import Codemod.Proofs.Tree.Occurrence
import Codemod.Scope.Table

/-!
# Announcements are taken up where they belong

The walk announces the shape and the name of a function before the scope of the
function opens, and the access of a name or a member before it is reached.  What
is pending in between could be taken up by something else, or be left behind.
`Tells` says that signals lead to steps and leave nothing pending, and
`Node.trace` are the steps of a node, by the access that is announced for it.  A
trace is made from the traces of the parts; no announcement leads from one part
to another, because a part that takes none is never given one.
-/

namespace Codemod

/-! ## Signals and steps -/

/-- The steps that signals lead to, and what is pending after them. -/
def Pending.settle (pending : Pending) : List Signal → List Step × Pending
  | [] => ([], pending)
  | signal :: rest =>
    let heard := pending.hear signal
    let later := heard.2.settle rest
    (heard.1 ++ later.1, later.2)

namespace Pending

variable {pending next last : Pending} {signals more : List Signal} {steps later : List Step}

theorem settle_cons {signal : Signal}
    (rest : (pending.hear signal).2.settle signals = (steps, last)) :
    pending.settle (signal :: signals) = ((pending.hear signal).1 ++ steps, last) := by
  rw [settle, rest]

theorem settle_append (first : pending.settle signals = (steps, next))
    (second : next.settle more = (later, last)) :
    pending.settle (signals ++ more) = (steps ++ later, last) := by
  induction signals generalizing pending steps with
  | nil =>
    cases first
    exact second
  | cons signal rest ih =>
    cases first
    rw [List.cons_append, settle_cons (ih rfl), List.append_assoc]

end Pending

/-- A builder does the steps that the signals lead to. -/
theorem Builder.run_eq (signals : List Signal) (builder : Builder) :
    signals.foldl Builder.hear builder =
      ⟨(builder.pending.settle signals).1.foldl Survey.step builder.survey,
        (builder.pending.settle signals).2⟩ := by
  induction signals generalizing builder with
  | nil => rfl
  | cons signal rest ih => simp [ih, Pending.settle, hear]

namespace Trace

/-- The trace of a part, by how the part is used. -/
abbrev Part : Type := Node × (Access → List Step)

/-- The steps of a part that is only read. -/
def Part.steps (part : Part) : List Step :=
  part.2 .read

/-- The steps of parts that are only read, one after the other. -/
def readAll (parts : List Part) : List Step :=
  parts.flatMap Part.steps

def inScope (opening : Opening) (steps : List Step) : List Step :=
  .openScope opening :: steps ++ [.closeScope]

end Trace

open Codemod.Trace

namespace Signals

/-- Signals lead to steps if an access is pending before them, and leave nothing pending. -/
def Tells (access : Access) (signals : List Signal) (steps : List Step) : Prop :=
  Pending.settle ⟨none, none, access⟩ signals = (steps, .nothing)

variable {access : Access} {signals more : List Signal} {steps later : List Step}

theorem Tells.nil : Tells .read [] [] := rfl

theorem Tells.unique (first : Tells access signals steps) (second : Tells access signals later) :
    steps = later :=
  congrArg Prod.fst (first.symm.trans second)

theorem Tells.append (first : Tells access signals steps) (second : Tells .read more later) :
    Tells access (signals ++ more) (steps ++ later) :=
  Pending.settle_append first second

theorem Tells.step (step : Step) (tells : Tells access signals steps) :
    Tells access (.step step :: signals) (step :: steps) :=
  Pending.settle_cons tells

theorem Tells.map_step (own : List Step) (tells : Tells access signals steps) :
    Tells access (own.map .step ++ signals) (own ++ steps) := by
  induction own with
  | nil => exact tells
  | cons step _ ih => exact ih.step step

theorem Tells.announce (tells : Tells access signals steps) :
    Tells .read (.expectAccess access :: signals) steps := tells

theorem tells_reference (name : String) (span : Span) (access : Access) :
    Tells access [.reference name span] [.reference name span access] := rfl

theorem tells_member (chain : Option MemberChain) (span : Span) (access : Access) :
    Tells access [.member chain span]
      (chain.toList.map fun chain => .member chain span access) := by
  simp [Tells, Pending.settle, Pending.hear, Pending.nothing]

theorem Tells.inScope (opening : Opening) (tells : Tells .read signals steps) :
    Tells .read (within (.step (.openScope opening)) signals) (inScope opening steps) :=
  (tells.append (Tells.nil.step .closeScope)).step (.openScope opening)

/-- The scope of a function takes up the announcements of its name and of its shape. -/
theorem Tells.inFunction (isArrow : Bool) (name : Option (String × Span))
    (shape : Option FunctionShape) (span : Span) (tells : Tells .read signals steps) :
    Tells .read ((name.toList.map fun entry => .expectName entry.1 entry.2) ++
        .expectFunction shape :: .step (.enter span) :: within (.openFunction isArrow) signals)
      (.enter span :: Trace.inScope (.function isArrow name shape) steps) := by
  have closed : Pending.settle .nothing (signals ++ [.step .closeScope]) = _ :=
    tells.append (Tells.nil.step .closeScope)
  cases name with
  | none =>
    exact Pending.settle_cons (Pending.settle_cons (Pending.settle_cons closed))
  | some entry =>
    exact Pending.settle_cons
      (Pending.settle_cons (Pending.settle_cons (Pending.settle_cons closed)))

end Signals

open Codemod.Signals

namespace Node

/-! ## Traces of nodes -/

/-- The access that is announced for a node, if it takes one. -/
def taken (node : Node) (access : Access) : Access :=
  if node.takesAccess then access else .read

@[simp]
theorem taken_read (node : Node) : node.taken .read = .read := ite_self _

theorem taken_eq {node : Node} {access : Access}
    (takes : node.takesAccess = true ∨ access = .read) : node.taken access = access := by
  rcases takes with isTaken | rfl
  · exact if_pos isTaken
  · exact node.taken_read

/-- The steps of the walk over a tree, by how the tree is used. -/
def trace (node : Node) (access : Access) : List Step :=
  (Pending.settle ⟨none, none, node.taken access⟩ node.signals).1

theorem trace_eq_read {node : Node} (takesNone : node.takesAccess = false) (access : Access) :
    node.trace access = node.trace .read := by
  rw [trace, trace, taken, taken, takesNone]
  rfl

/-- However a node is used, its signals leave nothing pending. -/
def LeavesNothing (node : Node) : Prop :=
  ∀ access, Tells (node.taken access) node.signals (node.trace access)

theorem trace_eq {node : Node} {access : Access} {steps : List Step}
    (tells : Tells (node.taken access) node.signals steps) : node.trace access = steps :=
  congrArg Prod.fst tells

theorem leavesNothing_of_exists {node : Node}
    (tells : ∀ access, ∃ steps, Tells (node.taken access) node.signals steps) :
    node.LeavesNothing := by
  intro access
  obtain ⟨steps, told⟩ := tells access
  rw [trace_eq told]
  exact told

/-- The parts of a node with their signals. -/
def signalParts (children : List Node) : List Signals.Part :=
  children.map fun child => (child, child.signals)

/-- The parts of a node with their traces. -/
def parts (children : List Node) : List Trace.Part :=
  children.map fun child => (child, child.trace)

theorem signals_mk (kind : Kind) (span : Span) (children : List Node) :
    (mk kind span children).signals = assemble kind span (signalParts children) := by
  rw [signals, fold_mk]
  rfl

@[simp]
theorem map_signalParts (children : List Node) : (signalParts children).map (·.1) = children := by
  simp [signalParts, Function.comp_def]

end Node

namespace ScopeTable

def ofSteps (steps : List Step) : ScopeTable :=
  (steps.foldl Survey.step Survey.start).table

/-- The table of a program is built by the steps of its trace. -/
theorem ofProgram_eq (root : Node) : ofProgram root = ofSteps (root.trace .read) := by
  rw [ofProgram, Builder.run_eq, ofSteps, Node.trace, Node.taken_read]
  rfl

end ScopeTable

/-! ## Signals of parts -/

namespace Signals

/-- The part with its trace. -/
def Part.strand (part : Part) : Trace.Part :=
  (part.1, part.1.trace)

/-- The signals of the part are those of a node that leaves nothing pending. -/
def Part.LeavesNothing (part : Part) : Prop :=
  ∀ access, Tells (part.1.taken access) part.2 (part.1.trace access)

variable {access : Access} {part : Part} {parts : List Part}

theorem Part.LeavesNothing.read (clean : part.LeavesNothing) :
    Tells .read part.2 (part.1.trace .read) := by
  have tells := clean .read
  rwa [Node.taken_read] at tells

theorem Part.LeavesNothing.announced (clean : part.LeavesNothing) (access : Access) :
    Tells .read (announced access part) (part.1.trace access) := by
  have tells := clean access
  rw [Node.taken] at tells
  rw [Signals.announced]
  split
  · next takes =>
    rw [if_pos takes] at tells
    exact tells.announce
  · next takesNone =>
    rw [if_neg takesNone] at tells
    exact tells

end Signals

end Codemod
