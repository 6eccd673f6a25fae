import Codemod.Proofs.Destructure.Precedence
import Mathlib.Data.List.Nodup
import Mathlib.Data.List.Perm.Basic

/-!
# Every access has one outcome

The planner sorts the accesses of properties by owner and by name, and several
checks may turn an access away on the way: its name is reserved, it has no
owner, its function or its name is blocked, or the access itself.  `outcomes`
gives each access its verdict in place, without any sorting.  The edits and the
log that the planner arrives at are those of `outcomes`, up to their order, and
besides them there is nothing but the edits that bind new names.

In a text whose spans nest it follows what happens to the text of an access.
It is replaced once, or it is logged once and not replaced.  One kind of edit
may reach it all the same: where a pattern without properties takes up new
names, the whole pattern is replaced, with the type that is ascribed to it and
whatever that type holds.
-/

namespace Codemod.Destructure

open ScopeTable

/-! ## Grouping -/

section Grouping

variable {Item Key Result : Type} [DecidableEq Key]

/-- What is sorted by distinct keys is still there once. -/
theorem perm_flatMap_filter {keys : List Key} (distinct : keys.Nodup)
    {items : List Item} {key : Item → Key} (covered : ∀ item ∈ items, key item ∈ keys) :
    (keys.flatMap fun one => items.filter fun item => key item == one).Perm items := by
  induction keys generalizing items with
  | nil =>
    rw [List.eq_nil_iff_forall_not_mem.2 fun item member => List.not_mem_nil (covered item member)]
    exact List.Perm.refl _
  | cons one rest ih =>
    obtain ⟨fresh, distinctRest⟩ := List.nodup_cons.1 distinct
    -- The later groups are groups of the items without the first group.
    have later : (rest.flatMap fun other => items.filter fun item => key item == other) =
        rest.flatMap fun other => (items.filter fun item => !(key item == one)).filter
          fun item => key item == other := by
      refine List.flatMap_congr fun other member => ?_
      rw [List.filter_filter]
      refine List.filter_congr fun item _ => ?_
      by_cases same : key item = other
      · have apart : other ≠ one := fun equal => fresh (equal ▸ member)
        simp [same, apart]
      · simp [same]
    rw [List.flatMap_cons, later]
    refine (List.Perm.append_left _ (ih distinctRest ?_)).trans
      (List.filter_append_perm _ items)
    intro item member
    obtain ⟨isItem, isOther⟩ := List.mem_filter.1 member
    rcases List.mem_cons.1 (covered item isItem) with same | isLater
    · simp [same] at isOther
    · exact isLater

omit [DecidableEq Key] in
/-- Two ways of reading items of which only one ever answers. -/
theorem perm_filterMap_append {items : List Item} {first second both : Item → Option Result}
    (either : ∀ item ∈ items, first item = none ∧ both item = second item ∨
      second item = none ∧ both item = first item) :
    (items.filterMap first ++ items.filterMap second).Perm (items.filterMap both) := by
  induction items with
  | nil => exact List.Perm.refl _
  | cons item rest ih =>
    have tail := ih fun other member =>
      either other (List.mem_cons_of_mem _ member)
    rcases either item List.mem_cons_self with ⟨silent, same⟩ | ⟨silent, same⟩
    · simp only [List.filterMap_cons, silent, same]
      cases second item with
      | none => exact tail
      | some result => exact List.perm_middle.trans (tail.cons result)
    · simp only [List.filterMap_cons, silent, same]
      cases first item with
      | none => exact tail
      | some result => exact tail.cons result

end Grouping

variable {setting : Setting}

/-! ## Outcomes -/

/-- The accesses of properties with the names of the properties, in order. -/
def propertyAccesses (setting : Setting) : List (MemberAccess × String) :=
  setting.table.members.filterMap fun access =>
    (candidateName? setting access).map fun name => (access, name)

/-- What becomes of an access of a property. -/
def outcome (setting : Setting) (access : MemberAccess) (name : String) : Verdict :=
  if Text.isReserved name then .left .reservedWord
  else
    match owner? setting access with
    | .error reason => .left reason
    | .ok function => verdict setting function ⟨access, name, function.scope⟩

/-- Every access of a property with what becomes of it, in order. -/
def outcomes (setting : Setting) : List Judgement :=
  (propertyAccesses setting).map fun entry =>
    ⟨entry.1, entry.2, outcome setting entry.1 entry.2⟩

theorem classified_eq (setting : Setting) :
    classified setting = (propertyAccesses setting).map fun entry =>
      (entry.1, classify setting entry.1 entry.2) := by
  rw [classified, propertyAccesses, List.map_filterMap]
  congr 1
  funext access
  rw [Option.map_map]
  rfl

/-- An access is classified as a candidate or left for the reason given. -/
theorem classify_cases (setting : Setting) (access : MemberAccess) (name : String) :
    (∃ reason, classify setting access name = .error reason ∧
      outcome setting access name = .left reason) ∨
    ∃ function, owner? setting access = .ok function ∧
      classify setting access name = .ok ⟨access, name, function.scope⟩ ∧
      outcome setting access name = verdict setting function ⟨access, name, function.scope⟩ := by
  rw [classify, outcome]
  cases Text.isReserved name with
  | true => exact Or.inl ⟨_, rfl, rfl⟩
  | false =>
    cases isOwner : owner? setting access with
    | error reason => exact Or.inl ⟨reason, rfl, rfl⟩
    | ok function => exact Or.inr ⟨function, rfl, rfl, rfl⟩

theorem candidates_eq (setting : Setting) :
    candidates setting = (propertyAccesses setting).filterMap fun entry =>
      (classify setting entry.1 entry.2).toOption := by
  rw [candidates, classified_eq, List.filterMap_map]
  rfl

/-! ## Sorting loses nothing -/

theorem perm_ownCandidates (all : List Candidate) (function : FunctionRecord) :
    (ownCandidates all function).Perm
      (all.filter fun candidate => candidate.owner == function.scope) := by
  apply perm_flatMap_filter (Text.nodup_nameSet _)
  intro candidate member
  exact Text.mem_nameSet.2 (List.mem_map_of_mem member)

/-- Every candidate is a candidate of one function. -/
theorem perm_candidates (wellFormed : setting.table.WellFormed) :
    (setting.table.functions.flatMap (ownCandidates (candidates setting))).Perm
      (candidates setting) := by
  have byOwner := List.Perm.flatMap_left setting.table.functions
    fun function _ => perm_ownCandidates (candidates setting) function
  refine byOwner.trans ?_
  have distinct : (setting.table.functions.map FunctionRecord.scope).Nodup :=
    List.pairwise_map.2 (wellFormed.functions_increasing.imp Nat.ne_of_lt)
  have covered : ∀ candidate ∈ candidates setting,
      candidate.owner ∈ setting.table.functions.map FunctionRecord.scope := by
    intro candidate member
    obtain ⟨_, _, _, function, isOwner, isScope⟩ := mem_candidates_iff.1 member
    rw [← isScope]
    exact List.mem_map_of_mem (isOwner_of_owner? wellFormed isOwner).member
  have grouped := perm_flatMap_filter distinct covered
  rwa [List.flatMap_map] at grouped

/-- The verdicts of a function are the outcomes of its accesses. -/
theorem judgements_eq (wellFormed : setting.table.WellFormed) {function : FunctionRecord}
    (member : function ∈ setting.table.functions) :
    judgements setting (candidates setting) function =
      (ownCandidates (candidates setting) function).map fun candidate =>
        ⟨candidate.access, candidate.name, outcome setting candidate.access candidate.name⟩ := by
  refine List.map_congr_left fun candidate isOwn => ?_
  have judged : Judged setting function ⟨candidate.access, candidate.name,
      verdict setting function candidate⟩ := ⟨member, List.mem_map_of_mem isOwn⟩
  obtain ⟨_, _, unreserved, isOwner, isVerdict⟩ := (judged_iff wellFormed).1 judged
  have isOutcome : outcome setting candidate.access candidate.name =
      verdict setting function ⟨candidate.access, candidate.name, function.scope⟩ := by
    rw [outcome, unreserved, if_neg Bool.false_ne_true, isOwner]
  rw [isOutcome]
  exact congrArg (Judgement.mk candidate.access candidate.name) isVerdict

/-- Whatever is read off the verdicts of all functions is read off the candidates. -/
theorem perm_flatMap_judgements (wellFormed : setting.table.WellFormed) {Result : Type}
    (read : Judgement → Option Result) :
    (setting.table.functions.flatMap fun function =>
      (judgements setting (candidates setting) function).filterMap read).Perm
      ((propertyAccesses setting).filterMap fun entry =>
        (classify setting entry.1 entry.2).toOption.bind fun candidate =>
          read ⟨candidate.access, candidate.name,
            outcome setting candidate.access candidate.name⟩) := by
  have sorted : (setting.table.functions.flatMap fun function =>
      (judgements setting (candidates setting) function).filterMap read) =
      (setting.table.functions.flatMap (ownCandidates (candidates setting))).filterMap
        fun candidate => read ⟨candidate.access, candidate.name,
          outcome setting candidate.access candidate.name⟩ := by
    rw [List.filterMap_flatMap]
    refine List.flatMap_congr fun function member => ?_
    rw [judgements_eq wellFormed member, List.filterMap_map]
    rfl
  rw [sorted, ← List.filterMap_filterMap, ← candidates_eq]
  exact (perm_candidates wellFormed).filterMap _

/-! ## The edits and the log -/

/-- The replacement that a verdict asks for. -/
def replacement? (judgement : Judgement) : Option Edit :=
  if judgement.verdict.isReplaced then
    some (.replace judgement.access.span judgement.name.toList)
  else none

theorem replacements_eq (judgements : List Judgement) :
    replacements judgements = judgements.filterMap replacement? := by
  rw [replacements]
  induction judgements with
  | nil => rfl
  | cons judgement rest ih =>
    cases isReplaced : judgement.verdict.isReplaced <;>
      simp [replacement?, isReplaced, ih]

/-- The event that a verdict leaves in the log. -/
def skip? (judgement : Judgement) : Option Event :=
  match judgement.verdict with
  | .left reason => some (.skipped name judgement.access.span reason)
  | _ => none

theorem verdictLog_eq (judgements : List Judgement) :
    verdictLog judgements = judgements.filterMap skip? := rfl

/-- The edit that binds the new names of a function. -/
def newBinding? (setting : Setting) (function : FunctionRecord) : Option Edit :=
  bindingEdit? setting function (newNames setting function)

theorem bindsNames_of_newBinding? (wellFormed : setting.table.WellFormed)
    {function : FunctionRecord} (member : function ∈ setting.table.functions) {edit : Edit}
    (isEdit : newBinding? setting function = some edit) :
    BindsNames setting (propsPatterns setting function) (newNames setting function) edit := by
  obtain ⟨same, isSame, binds⟩ := exists_bindingEdit? wellFormed member
    (bindingEdit?_eq_some_iff.1 isEdit).1
  obtain rfl := Option.some.inj (isSame.symm.trans isEdit)
  exact binds

/-- The edits of a text are the replacements of its accesses and the new bindings. -/
theorem perm_edits (wellFormed : setting.table.WellFormed) :
    (planAll setting).edits.Perm (replacements (outcomes setting) ++
      setting.table.functions.filterMap (newBinding? setting)) := by
  have split := List.flatMap_append_perm setting.table.functions
    (fun function => replacements (judgements setting (candidates setting) function))
    (fun function => (newBinding? setting function).toList)
  have bindings : (setting.table.functions.flatMap fun function =>
      (newBinding? setting function).toList) =
      setting.table.functions.filterMap (newBinding? setting) :=
    (List.filterMap_eq_flatMap_toList _ _).symm
  rw [bindings] at split
  rw [edits_planAll]
  refine split.symm.trans (List.Perm.append_right _ ?_)
  simp only [replacements_eq]
  refine (perm_flatMap_judgements wellFormed replacement?).trans ?_
  rw [outcomes, List.filterMap_map]
  refine List.Perm.of_eq (List.filterMap_congr fun entry _ => ?_)
  rcases classify_cases setting entry.1 entry.2 with
    ⟨reason, isError, isLeft⟩ | ⟨function, _, isCandidate, _⟩
  · rw [isError, Function.comp_apply, replacement?, isLeft]
    rfl
  · rw [isCandidate]
    rfl

/-- Whether an event is that an access is left alone. -/
def isSkip : Event → Bool
  | .skipped _ _ _ => true
  | _ => false

theorem isSkip_of_mem_verdictLog {judgements : List Judgement} {event : Event}
    (member : event ∈ verdictLog judgements) : isSkip event = true := by
  obtain ⟨judgement, _, isEvent⟩ := List.mem_filterMap.1 member
  split at isEvent
  · cases isEvent
    rfl
  · cases isEvent

theorem isSkip_of_mem_unownedLog {event : Event} (member : event ∈ unownedLog setting) :
    isSkip event = true := by
  obtain ⟨entry, _, isEvent⟩ := List.mem_filterMap.1 member
  split at isEvent
  · cases isEvent
  · cases isEvent
    rfl

theorem filter_isSkip_planFunction (all : List Candidate) (function : FunctionRecord) :
    (planFunction setting all function).log.filter isSkip =
      verdictLog (judgements setting all function) := by
  have noSkip (planned : Bool) (event : Event) (isPlan : isSkip event = false) :
      (if planned then [] else [event]).filter isSkip = [] := by
    cases planned <;> simp [isPlan]
  rw [planFunction, List.filter_append, noSkip _ _ rfl, List.append_nil]
  exact List.filter_eq_self.2 fun event => isSkip_of_mem_verdictLog

theorem filter_isSkip_planAll (setting : Setting) :
    (planAll setting).log.filter isSkip = unownedLog setting ++
      setting.table.functions.flatMap fun function =>
        verdictLog (judgements setting (candidates setting) function) := by
  rw [planAll, Plan.log_append, Plan.log_concat, List.filter_append, List.flatMap_map,
    List.filter_flatMap]
  congr 1
  · exact List.filter_eq_self.2 fun event => isSkip_of_mem_unownedLog
  · exact List.flatMap_congr fun function _ => filter_isSkip_planFunction _ function

/-- The skips in the log of a text are those of its accesses. -/
theorem perm_skips (wellFormed : setting.table.WellFormed) :
    ((planAll setting).log.filter isSkip).Perm (verdictLog (outcomes setting)) := by
  rw [filter_isSkip_planAll, unownedLog, classified_eq, List.filterMap_map]
  refine (List.Perm.append_left _ (perm_flatMap_judgements wellFormed skip?)).trans ?_
  rw [verdictLog_eq, outcomes, List.filterMap_map]
  apply perm_filterMap_append
  intro entry _
  rcases classify_cases setting entry.1 entry.2 with
    ⟨reason, isError, isLeft⟩ | ⟨function, _, isCandidate, _⟩
  · refine Or.inr ⟨?_, ?_⟩
    · rw [isError]
      rfl
    · simp only [Function.comp_apply, skip?, isLeft, isError]
  · refine Or.inl ⟨?_, ?_⟩
    · simp only [Function.comp_apply, isCandidate]
    · rw [isCandidate]
      rfl

/-! ## The text of an access -/

theorem filter_replacements (judgements : List Judgement) (span : Span) :
    ((replacements judgements).filter fun edit => edit.span.contains span) =
      replacements (judgements.filter fun judgement =>
        judgement.access.span.contains span) := by
  rw [replacements, replacements, List.filter_map, List.filter_filter, List.filter_filter]
  congr 1
  exact List.filter_congr fun judgement _ => Bool.and_comm _ _

/-- Whether an event is that what stands at a span is left alone. -/
def isSkipAt (span : Span) : Event → Bool
  | .skipped _ place _ => place == span
  | _ => false

theorem filter_verdictLog (judgements : List Judgement) (span : Span) :
    (verdictLog judgements).filter (isSkipAt span) =
      verdictLog (judgements.filter fun judgement => judgement.access.span == span) := by
  rw [verdictLog_eq, verdictLog_eq, List.filter_filterMap, List.filterMap_filter]
  refine List.filterMap_congr fun judgement _ => ?_
  rw [skip?]
  split
  · rfl
  · simp

theorem filter_isSkipAt_filter_isSkip (log : List Event) (span : Span) :
    (log.filter isSkip).filter (isSkipAt span) = log.filter (isSkipAt span) := by
  rw [List.filter_filter]
  refine List.filter_congr fun event _ => ?_
  cases event <;> simp [isSkip, isSkipAt]

/-- A verdict asks for a replacement or for an event, and for one of them. -/
theorem replaced_or_skipped (judgement : Judgement) :
    replacements [judgement] = [.replace judgement.access.span judgement.name.toList] ∧
        verdictLog [judgement] = [] ∨
      replacements [judgement] = [] ∧ ∃ reason,
        verdictLog [judgement] = [.skipped name judgement.access.span reason] := by
  obtain ⟨access, property, verdict⟩ := judgement
  cases verdict with
  | left reason => exact Or.inr ⟨rfl, reason, rfl⟩
  | reused scope => exact Or.inl ⟨rfl, rfl⟩
  | injected => exact Or.inl ⟨rfl, rfl⟩

section Nested

variable {program : Program} {options : TransformOptions}

/-- The accesses of a text whose spans nest stand at different places. -/
theorem nodup_spans (nested : program.root.isNested = true) :
    ((ofProgram program.root).members.map MemberAccess.span).Nodup := by
  have distinct := Node.pairwise_span_ne_of_uses nested
  rw [← members_ofProgram, List.pairwise_map] at distinct
  exact List.pairwise_map.2 distinct

variable {access : MemberAccess} {name : String}

/-- An access of a property lies in the span of no other one. -/
theorem eq_of_contains_span (nested : program.root.isNested = true) {other : MemberAccess}
    {otherName : String} (member : access ∈ (ofProgram program.root).members)
    (isOther : other ∈ (ofProgram program.root).members)
    (named : candidateName? (.ofProgram program options) access = some name)
    (otherNamed : candidateName? (.ofProgram program options) other = some otherName)
    (inside : other.span.contains access.span = true) : other = access := by
  have sameLength : other.chain.path.length ≤ access.chain.path.length := by
    rw [candidateName?_eq_some_iff.1 named, candidateName?_eq_some_iff.1 otherNamed]
    exact Nat.le_refl _
  have sameUse := Node.eq_of_contains_of_length_le nested (use_mem_uses member)
    (use_mem_uses isOther) inside sameLength
  exact List.inj_on_of_nodup_map (nodup_spans nested) isOther member
    (congrArg Prod.snd sameUse).symm

theorem mem_outcomes_iff {setting : Setting} {judgement : Judgement} :
    judgement ∈ outcomes setting ↔ judgement.access ∈ setting.table.members ∧
        candidateName? setting judgement.access = some judgement.name ∧
        judgement.verdict = outcome setting judgement.access judgement.name := by
  simp only [outcomes, propertyAccesses, List.mem_map, List.mem_filterMap, Option.map_eq_some_iff]
  constructor
  · rintro ⟨_, ⟨access, member, name, named, rfl⟩, rfl⟩
    exact ⟨member, named, rfl⟩
  · rintro ⟨member, named, isVerdict⟩
    refine ⟨_, ⟨judgement.access, member, judgement.name, named, rfl⟩, ?_⟩
    rw [← isVerdict]

theorem nodup_outcomes (nested : program.root.isNested = true) :
    (outcomes (.ofProgram program options)).Nodup := by
  have distinct : (ofProgram program.root).members.Nodup := (nodup_spans nested).of_map _
  rw [outcomes, propertyAccesses, List.map_filterMap]
  refine List.Nodup.filterMap ?_ distinct
  intro access other judgement isOutcome isOther
  simp only [Option.map_map, Option.mem_def, Option.map_eq_some_iff] at isOutcome isOther
  obtain ⟨_, _, rfl⟩ := isOutcome
  obtain ⟨_, _, same⟩ := isOther
  exact (congrArg Judgement.access same).symm

/-- Any test that singles out the span of an access singles out its outcome. -/
theorem filter_outcomes (nested : program.root.isNested = true)
    (member : access ∈ (ofProgram program.root).members)
    (named : candidateName? (.ofProgram program options) access = some name) (test : Span → Bool)
    (passes : test access.span = true)
    (covers : ∀ span, test span = true → span.contains access.span = true) :
    ((outcomes (.ofProgram program options)).filter fun judgement =>
      test judgement.access.span) =
      [⟨access, name, outcome (.ofProgram program options) access name⟩] := by
  apply List.perm_singleton.1
  rw [List.perm_ext_iff_of_nodup ((nodup_outcomes nested).filter _) (List.nodup_singleton _)]
  intro judgement
  rw [List.mem_filter, List.mem_singleton, mem_outcomes_iff]
  constructor
  · rintro ⟨⟨isMember, isNamed, isVerdict⟩, isTested⟩
    obtain ⟨other, otherName, verdict⟩ := judgement
    obtain rfl : other = access :=
      eq_of_contains_span nested member isMember named isNamed (covers _ isTested)
    obtain rfl := Option.some.inj (isNamed.symm.trans named)
    exact congrArg _ isVerdict
  · rintro rfl
    exact ⟨⟨member, named, rfl⟩, passes⟩

/-! ## Patterns that are replaced -/

/--
An edit that fills a pattern without properties and so replaces it whole, while
an access stands in a part that is neither a property nor the rest: in the type
ascribed to the pattern.
-/
def Erases (program : Program) (setting : Setting) (access : MemberAccess)
    (edit : Edit) : Prop :=
  ∃ function ∈ setting.table.functions, ∃ target,
    IsFirstOpen (propsPatterns setting function) target ∧ target.lastEnd = none ∧
    edit = .replace target.pattern
      (setting.style.braced ((newNames setting function).map String.toList)) ∧
    ∃ pattern ∈ program.root.nodes, pattern.kind = .objectPattern ∧
      pattern.span = target.pattern ∧ ∃ part ∈ pattern.children, part.kind ≠ .rest ∧
        (∀ isShorthand isComputed,
          part.kind ≠ .patternProperty isShorthand isComputed) ∧
        access.use ∈ part.uses

section

variable (isText : program.root.kind = .program) (nested : program.root.isNested = true)
    (member : access ∈ (ofProgram program.root).members)
include isText nested member

/-- The new bindings that reach the text of an access replace the pattern around it. -/
theorem erases_of_contains {function : FunctionRecord}
    (isFunction : function ∈ (ofProgram program.root).functions) {edit : Edit}
    (isEdit : newBinding? (.ofProgram program options) function = some edit)
    (inside : edit.span.contains access.span = true) :
    Erases program (.ofProgram program options) access edit := by
  have binds := bindsNames_of_newBinding? (wellFormed_ofProgram program options) isFunction isEdit
  -- An insertion has no text to replace, while the text of an access is not empty.
  have notEmpty := Node.start_lt_stop_of_mem_uses nested (use_mem_uses member)
  have noInsert {offset : Nat} {text : List Char} :
      (Edit.insert offset text).span.contains access.span = false := by
    rw [Bool.eq_false_iff]
    intro holds
    obtain ⟨starts, stops⟩ := Span.contains_iff.1 holds
    exact absurd (Nat.lt_of_le_of_lt starts (Nat.lt_of_lt_of_le notEmpty stops))
      (Nat.lt_irrefl offset)
  cases binds with
  | declared => rw [noInsert] at inside; cases inside
  | extended => rw [noInsert] at inside; cases inside
  | @filled target first fresh isEmpty =>
    have isSome := (bindingEdit?_eq_some_iff.1 isEdit).1
    obtain ⟨name, isNew⟩ := List.exists_mem_of_ne_nil _ isSome
    obtain ⟨judgement, judged, _⟩ := (mem_newNames_iff isFunction).1 isNew
    obtain ⟨body, isBodyOf⟩ := judged.exists_body isText
    have ⟨before, behind, split, _, hasNoRest⟩ := first
    have isTarget : target ∈ topPatterns (.ofProgram program options) body := by
      rw [← isBodyOf.propsPatterns_eq, split]
      exact List.mem_append_right _ List.mem_cons_self
    obtain ⟨statement, isStatement, _, pattern, isDeclared, isPatternOf⟩ :=
      Node.exists_isPatternOf_of_mem_destructurings (List.mem_of_mem_filter isTarget)
    have isPattern : pattern ∈ program.root.nodes := Node.mem_nodes_trans
      (isBodyOf.mem_nodes_of_mem_bodyStatements isStatement) isDeclared.mem_nodes
    have inPattern : access.use ∈ pattern.uses := by
      apply Node.mem_uses_of_contains nested isPattern (use_mem_uses member)
      rw [isPatternOf.span]
      exact inside
    have inPart : ∃ part ∈ pattern.children, access.use ∈ part.uses := by
      have isKind := isPatternOf.kind
      obtain ⟨kind, span, children⟩ := pattern
      obtain rfl : kind = .objectPattern := isKind
      rw [Node.uses_mk (by simp)] at inPattern
      exact List.mem_flatMap.1 inPattern
    obtain ⟨part, isPart, isUse⟩ := inPart
    have text_eq := braced_eq (Setting.ofProgram program options).style isSome
    exact ⟨function, isFunction, target, first, isEmpty, congrArg _ text_eq.symm, pattern,
      isPattern, isPatternOf.kind, isPatternOf.span, part, isPart,
      isPatternOf.rest hasNoRest part isPart, isPatternOf.empty isEmpty part isPart, isUse⟩

/-- The edits that reach the text of an access of a property, and the skips of it. -/
theorem exists_erasing (named : candidateName? (.ofProgram program options) access = some name) :
    let setting := Setting.ofProgram program options
    let own := [⟨access, name, outcome setting access name⟩]
    ∃ erasing, (∀ edit ∈ erasing, Erases program setting access edit) ∧
      ((planAll setting).edits.filter fun edit => edit.span.contains access.span).Perm
        (replacements own ++ erasing) ∧
      ((planAll setting).log.filter (isSkipAt access.span)).Perm (verdictLog own) := by
  intro setting own
  have wellFormed := wellFormed_ofProgram program options
  refine ⟨(setting.table.functions.filterMap (newBinding? setting)).filter
    fun edit => edit.span.contains access.span, ?_, ?_, ?_⟩
  · intro edit isErasing
    obtain ⟨isBinding, inside⟩ := List.mem_filter.1 isErasing
    obtain ⟨function, isFunction, isEdit⟩ := List.mem_filterMap.1 isBinding
    exact erases_of_contains isText nested member isFunction isEdit inside
  · have covering := (perm_edits wellFormed).filter fun edit =>
      edit.span.contains access.span
    rwa [List.filter_append, filter_replacements, filter_outcomes nested member named
      (fun span => span.contains access.span) (Span.contains_refl _) (fun _ => id)]
      at covering
  · have skips := (perm_skips wellFormed).filter (isSkipAt access.span)
    have isOwn : ∀ span, (span == access.span) = true → span.contains access.span = true := by
      intro span same
      rw [beq_iff_eq.1 same]
      exact Span.contains_refl _
    rwa [filter_isSkipAt_filter_isSkip, filter_verdictLog, filter_outcomes nested member named
      (· == access.span) (beq_iff_eq.2 rfl) isOwn] at skips

end

end Nested

/-- A function is left alone exactly if none of its accesses becomes a name. -/
theorem planFunction_edits_eq_nil_iff {all : List Candidate}
    {function : FunctionRecord} :
    (planFunction setting all function).edits = [] ↔ ((judgements setting all function).filter
        fun judgement => judgement.verdict.isReplaced) = [] := by
  simp only [planFunction, List.append_eq_nil_iff, replacements,
    List.map_eq_nil_iff, and_iff_left_iff_imp]
  intro none_
  have noNames : injectedNames (judgements setting all function) = [] := by
    have noInjected : ((judgements setting all function).filter
        fun judgement => judgement.verdict == .injected) = [] := by
      rw [List.filter_eq_nil_iff] at none_ ⊢
      intro judgement member injected
      rw [beq_iff_eq] at injected
      exact none_ judgement member (by rw [injected]; rfl)
    rw [injectedNames, noInjected]
    rfl
  rw [noNames]
  rfl

/--
Each access of a property has one outcome.  Up to their order, the edits are the
replacements that the outcomes ask for and one new binding for some of the
functions; the skips are those that the outcomes ask for.  A function none of
whose accesses is replaced has no edits.

Where spans nest, the text of an access is reached by its replacement alone or,
if the access is skipped, by no edit, except for edits that erase the type in
which it stands.
-/
theorem property_accesses_have_one_outcome (program : Program)
    (options : TransformOptions) :
    let setting := Setting.ofProgram program options
    let plan := Transform.propsToDestructuring.plan program options
    (outcomes setting).map (fun judgement => (judgement.access, judgement.name)) =
      propertyAccesses setting ∧
    plan.edits.Perm (replacements (outcomes setting) ++
      setting.table.functions.filterMap (newBinding? setting)) ∧
    (plan.log.filter isSkip).Perm (verdictLog (outcomes setting)) ∧
    (∀ function ∈ setting.table.functions,
      (∀ edit, newBinding? setting function = some edit →
        BindsNames setting (propsPatterns setting function)
          (newNames setting function) edit) ∧
      ((∀ judgement, Judged setting function judgement →
          judgement.verdict.isReplaced = false) →
        (planFunction setting (candidates setting) function).edits = [])) ∧
    (program.root.kind = .program → program.root.isNested = true →
      ∀ access ∈ setting.table.members, ∀ name,
        access.chain = ⟨setting.self.root, ["props", name]⟩ →
        ∃ erasing, (∀ edit ∈ erasing, Erases program setting access edit) ∧
          ((plan.edits.filter fun edit => edit.span.contains access.span).Perm
              (.replace access.span name.toList :: erasing) ∧
            plan.log.filter (isSkipAt access.span) = [] ∨
          (plan.edits.filter fun edit => edit.span.contains access.span).Perm erasing ∧
            ∃ reason, plan.log.filter (isSkipAt access.span) =
              [.skipped Destructure.name access.span reason])) := by
  intro setting plan
  have wellFormed := wellFormed_ofProgram program options
  refine ⟨?_, perm_edits wellFormed, perm_skips wellFormed, ?_, ?_⟩
  · rw [outcomes, List.map_map]
    exact List.map_id' _
  · intro function member
    refine ⟨fun edit => bindsNames_of_newBinding? wellFormed member, fun unreplaced => ?_⟩
    rw [planFunction_edits_eq_nil_iff, List.filter_eq_nil_iff]
    intro judgement judged
    rw [unreplaced judgement ⟨member, judged⟩]
    exact Bool.false_ne_true
  · intro isText nested access member name isChain
    obtain ⟨erasing, erases, covering, skips⟩ := exists_erasing isText nested member
      (candidateName?_eq_some_iff.2 isChain)
    refine ⟨erasing, erases, ?_⟩
    rcases replaced_or_skipped ⟨access, name, outcome setting access name⟩ with
      ⟨replaces, isSilent⟩ | ⟨isNone, reason, isSkipped⟩
    · rw [replaces] at covering
      rw [isSilent] at skips
      exact Or.inl ⟨covering, skips.eq_nil⟩
    · rw [isNone] at covering
      rw [isSkipped] at skips
      exact Or.inr ⟨covering, reason, List.perm_singleton.1 skips⟩

/-- A read in the type that is ascribed to an empty pattern. -/
def ascribedRead : List Char :=
  ("function f() \x7b const \x7b x \x7d = this.props; return () => \x7b " ++
    "const \x7b\x7d: \x7b [this.props.x]: string \x7d = this.props; " ++
    "return this.props.y; \x7d; \x7d").toList

/-- The read of the sample is replaced, and so is the pattern with its type. -/
theorem property_accesses_have_one_outcome_in_ascribedRead :
    ∃ program, parseProgram (.ofPath "a.ts") ascribedRead = some program ∧
      program.root.isNested = true ∧
      ∃ access ∈ (ofProgram program.root).members, access.span = ⟨69, 81⟩ ∧
      ∃ edit, Erases program (.ofProgram program .standard) access edit ∧
        ((Transform.propsToDestructuring.plan program .standard).edits.filter
          fun edit => edit.span.contains access.span).Perm
            [.replace access.span ['x'], edit] := by
  obtain ⟨program, parsed, nested, access, member, isSpan, isChain, areTwo, isSilent⟩ :
      ∃ program ∈ parseProgram (.ofPath "a.ts") ascribedRead, program.root.isNested = true ∧
        ∃ access ∈ (ofProgram program.root).members, access.span = ⟨69, 81⟩ ∧
          access.chain = ⟨(Setting.ofProgram program .standard).self.root,
            ["props", "x"]⟩ ∧
          ((Transform.propsToDestructuring.plan program .standard).edits.filter
            fun edit => edit.span.contains access.span).length = 2 ∧
          ((Transform.propsToDestructuring.plan program .standard).log.filter
            (isSkipAt access.span)).isEmpty = true := by
    decide +kernel
  obtain ⟨_, _, _, _, reached⟩ := property_accesses_have_one_outcome program .standard
  obtain ⟨erasing, erases, ⟨covering, _⟩ | ⟨_, _, isSkipped⟩⟩ :=
    reached (kind_of_parseProgram parsed) nested access member "x" isChain
  · have isOne : erasing.length = 1 := by
      have sameLength := covering.length_eq
      rw [areTwo, List.length_cons] at sameLength
      omega
    obtain ⟨edit, rfl⟩ := List.length_eq_one_iff.1 isOne
    exact ⟨program, parsed, nested, access, member, isSpan, edit,
      erases edit List.mem_cons_self, covering⟩
  · rw [List.isEmpty_iff.1 isSilent] at isSkipped
    cases isSkipped

/-- What becomes of the sample has lost the type, and the replaced read with it. -/
theorem ascribed_read_is_erased :
    ∃ output, Transform.propsToDestructuring.run (.ofPath "a.ts") .standard
        ascribedRead = some output ∧
      output.text = ("function f() \x7b const \x7b x \x7d = this.props; return () => \x7b " ++
        "const \x7b y \x7d = this.props; return y; \x7d; \x7d").toList :=
  Option.map_eq_some_iff.1 (by decide +kernel)

end Codemod.Destructure
