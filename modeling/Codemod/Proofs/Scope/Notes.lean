import Codemod.Proofs.Scope.Noting

/-!
# What a table has noted

The declarations of a scope and the uses recorded with it are all notes.
`View.notes` is the view of a table that has all of them, without how a name or
a chain is used, which depends on what stands around it.  Views of some of the
notes are made from it by `View.filterMap`.
-/

namespace Codemod

open Trace

/-- Something that a table has noted in a scope. -/
inductive Note where
  | declaration (name : String) (site : Site)
  | reference (name : String) (span : Span)
  | member (chain : MemberChain) (span : Span)
  | superCall (span : Span)
  deriving DecidableEq, Repr

/-- Where that stands which is noted. -/
def Note.span : Note → Span
  | declaration _ site => site.span
  | reference _ span => span
  | member _ span => span
  | superCall span => span

namespace ScopeTable

variable {table : ScopeTable} {id : ScopeId}

/-- The names that a scope of a table declares, with their sites. -/
def declarationsOf (table : ScopeTable) (id : ScopeId) : List (String × Site) :=
  (table.get? id).elim [] Scope.declarations

/-- The uses that are noted in a scope of a table. -/
def usesOf (table : ScopeTable) (id : ScopeId) : List Note :=
  ((table.references.filter fun reference => reference.scope == id).map fun reference =>
      .reference reference.name reference.span) ++
    ((table.members.filter fun member => member.scope == id).map fun member =>
      .member member.chain member.span) ++
    (table.superCalls.filter fun call => call.scope == id).map fun call => .superCall call.span

/-- All that is noted in a scope of a table. -/
def notesOf (table : ScopeTable) (id : ScopeId) : List Note :=
  (table.declarationsOf id).map (fun entry => .declaration entry.1 entry.2) ++ table.usesOf id

theorem declarationsOf_eq {scope : Scope} (found : table.get? id = some scope) :
    table.declarationsOf id = scope.declarations := by
  rw [declarationsOf, found]
  rfl

/-- A declaration comes last in its scope, and the other scopes keep what they have. -/
theorem declarationsOf_declare {other : ScopeId} (inside : other < table.scopes.length)
    (name : String) (site : Site) :
    (table.declare other name site).declarationsOf id =
      table.declarationsOf id ++ if other = id then [(name, site)] else [] := by
  rw [declarationsOf, declarationsOf, get?_declare]
  by_cases isHere : other = id
  · subst isHere
    obtain ⟨scope, found⟩ := exists_get? inside
    simp [found, Scope.declare]
  · cases table.get? id with
    | none => simp [isHere]
    | some scope => simp [isHere]

theorem declarationsOf_push (scope : Scope) (functions : List FunctionRecord) :
    (table.push scope functions).declarationsOf id =
      table.declarationsOf id ++ if id = table.scopes.length then scope.declarations else [] := by
  rw [declarationsOf, declarationsOf, get?_push]
  by_cases isNew : id = table.scopes.length
  · subst isNew
    have unknown : table.get? table.scopes.length = none := List.getElem?_eq_none (Nat.le_refl _)
    simp [unknown]
  · simp [isNew]

/-- One more list in the middle may as well come last. -/
theorem perm_append_right_comm {α : Type} (first new rest : List α) :
    (first ++ new ++ rest).Perm (first ++ rest ++ new) := by
  rw [List.append_assoc, List.append_assoc]
  exact List.Perm.append_left first List.perm_append_comm

theorem notesOf_declare (id : ScopeId) {other : ScopeId} (inside : other < table.scopes.length)
    (name : String) (site : Site) :
    ((table.declare other name site).notesOf id).Perm
      (table.notesOf id ++ if other = id then [.declaration name site] else []) := by
  rw [notesOf, declarationsOf_declare inside, List.map_append, apply_ite (List.map _)]
  exact perm_append_right_comm _ _ _

theorem notesOf_push (id : ScopeId) (scope : Scope) (functions : List FunctionRecord) :
    ((table.push scope functions).notesOf id).Perm
      (table.notesOf id ++ if id = table.scopes.length then
        scope.declarations.map fun entry => .declaration entry.1 entry.2 else []) := by
  rw [notesOf, declarationsOf_push, List.map_append, apply_ite (List.map _)]
  exact perm_append_right_comm _ _ _

end ScopeTable

namespace Step

/-- What a step notes, with how far it reaches. -/
def given : Step → List (Reach × Note)
  | declare reach name site => [(reach, .declaration name site)]
  | reference name span _ => [(.innermost, .reference name span)]
  | member chain span _ => [(.innermost, .member chain span)]
  | superCall span => [(.innermost, .superCall span)]
  | _ => []

end Step

namespace Survey

open ScopeTable

variable {survey : Survey}

theorem Ready.variableScope_lt (ready : survey.Ready) :
    survey.variableScope < survey.table.scopes.length := by
  obtain ⟨around, _⟩ := holder?_spec ready.holder?_eq
  exact (ready.sound.formed.le_of_mem_ancestors around).2

theorem notesOf_declareStep (ready : survey.Ready) (id : ScopeId) (reach : Reach) (name : String)
    (site : Site) :
    ((survey.step (.declare reach name site)).table.notesOf id).Perm (survey.table.notesOf id ++
        if survey.reaches reach id then [.declaration name site] else []) := by
  have here : ((survey.declareIn survey.current name site).table.notesOf id).Perm _ :=
    notesOf_declare id ready.current_lt name site
  cases reach with
  | innermost =>
    simp only [reaches, beq_iff_eq]
    exact here
  | hoisted =>
    simp only [reaches, beq_iff_eq]
    exact notesOf_declare id ready.variableScope_lt name site
  | both =>
    simp only [reaches, Bool.or_eq_true, beq_iff_eq, Survey.step]
    split
    · next isSame =>
      simp only [isSame, or_self]
      exact here
    · next isApart =>
      have inside : survey.variableScope <
          (survey.declareIn survey.current name site).table.scopes.length := by
        rw [declareIn, length_declare]
        exact ready.variableScope_lt
      have there := notesOf_declare id inside name site
      refine (there.trans (here.append_right _)).trans ?_
      by_cases isHere : survey.current = id
      · have isElsewhere : ¬ survey.variableScope = id := fun isThere =>
          isApart (isThere.trans isHere.symm)
        simp [isHere, isElsewhere]
      · simp [isHere]

/-- One use more, wherever it stands among the uses. -/
theorem perm_notesOf_of_uses {table after : ScopeTable} {id : ScopeId} {new : List Note}
    (scopes : after.scopes = table.scopes)
    (uses : (after.usesOf id).Perm (table.usesOf id ++ new)) :
    (after.notesOf id).Perm (table.notesOf id ++ new) := by
  rw [notesOf, notesOf, declarationsOf, declarationsOf, get?, get?, scopes, List.append_assoc]
  exact uses.append_left _

theorem filter_singleton_map {α β : Type} (has : α → Bool) (change : α → β) (value : α) :
    ([value].filter has).map change = if has value then [change value] else [] := by
  cases isIn : has value <;> simp [isIn]

theorem notesOf_step {step : Step} (plain : step.isPlain = true) (ready : survey.Ready)
    (id : ScopeId) :
    ((survey.step step).table.notesOf id).Perm
      (survey.table.notesOf id ++ step.given.filterMap fun entry =>
        if survey.reaches entry.1 id then some entry.2 else none) := by
  have single : ∀ (reach : Reach) (note : Note), ([(reach, note)].filterMap fun entry =>
        if survey.reaches entry.1 id then some entry.2 else none) =
          if survey.reaches reach id then [note] else [] := by
    intro reach note
    cases reached : survey.reaches reach id <;> simp [reached]
  cases step with
  | openScope opening => cases plain
  | closeScope => cases plain
  | enter span => simp [Step.given, Survey.step]
  | expectClass span => simp [Step.given, Survey.step]
  | declare reach name site =>
    rw [Step.given, single]
    exact notesOf_declareStep ready id reach name site
  | reference name span access =>
    rw [Step.given, single]
    refine perm_notesOf_of_uses rfl ?_
    rw [Survey.step, ScopeTable.usesOf, ScopeTable.usesOf, List.filter_append, List.map_append,
      filter_singleton_map, List.append_assoc, List.append_assoc _ _ (List.map _ _)]
    exact perm_append_right_comm _ _ _
  | member chain span access =>
    rw [Step.given, single]
    refine perm_notesOf_of_uses rfl ?_
    rw [Survey.step, ScopeTable.usesOf, ScopeTable.usesOf, List.filter_append, List.map_append,
      filter_singleton_map, ← List.append_assoc]
    exact perm_append_right_comm _ _ _
  | superCall span =>
    rw [Step.given, single]
    refine perm_notesOf_of_uses rfl ?_
    rw [Survey.step, ScopeTable.usesOf, ScopeTable.usesOf, List.filter_append, List.map_append,
      filter_singleton_map, ← List.append_assoc]
    exact List.Perm.refl _

end Survey

namespace ScopeTable

/-- What a scope has noted when it opens. -/
def bornNotes (opening : Opening) : List Note :=
  (Survey.functionParts opening).1.map fun entry => .declaration entry.1 entry.2

/-- The view of all that is noted. -/
def View.notes : View Note where
  read := notesOf
  gives := Step.given
  born := bornNotes
  read_empty := fun _ => rfl
  gives_enter := fun _ => rfl
  read_step := fun plain ready id => Survey.notesOf_step plain ready id
  read_openScope := fun survey opening id => by
    rw [Survey.openScope_table]
    exact notesOf_push id _ _

/-- The view of some of what another view shows. -/
def View.filterMap {α β : Type} (view : View α) (select : α → Option β) : View β where
  read := fun table id => (view.read table id).filterMap select
  gives := fun step => (view.gives step).filterMap fun entry =>
    (select entry.2).map fun value => (entry.1, value)
  born := fun opening => (view.born opening).filterMap select
  read_empty := fun id => by rw [view.read_empty, List.filterMap_nil]
  gives_enter := fun span => by rw [view.gives_enter, List.filterMap_nil]
  read_step := fun plain ready id => by
    refine ((view.read_step plain ready id).filterMap select).trans (List.Perm.of_eq ?_)
    rw [List.filterMap_append, List.filterMap_filterMap, List.filterMap_filterMap]
    congr 2
    funext entry
    cases isSelected : select entry.2 with
    | none => split <;> simp [isSelected]
    | some value => split <;> simp_all
  read_openScope := fun survey opening id => by
    refine ((view.read_openScope survey opening id).filterMap select).trans (List.Perm.of_eq ?_)
    rw [List.filterMap_append, apply_ite (List.filterMap select), List.filterMap_nil]

end ScopeTable

end Codemod
