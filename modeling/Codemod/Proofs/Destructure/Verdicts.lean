import Codemod.Proofs.Scope.Survey
import Codemod.Proofs.Text.NameOrder
import Codemod.Transform.Destructure

/-!
# What a verdict says

The planner reaches its verdict on an access through a row of checks.  The
lemmas of this module read the checks back off the verdict, once and for all:
who owns the access, which name it has, and what the blockers answered.  Later
modules reason from these facts and never open the planner again.
-/

namespace Codemod

namespace Destructure

open ScopeTable

/-- What the planner looks at when it plans for a program. -/
def Setting.ofProgram (program : Program) (options : TransformOptions) :
    Setting where
  source := program.source
  style := options.style
  self := options.selfReference
  table := ScopeTable.ofProgram program.root

theorem wellFormed_ofProgram (program : Program) (options : TransformOptions) :
    (Setting.ofProgram program options).table.WellFormed :=
  ScopeTable.wellFormed_ofProgram program.root

variable {setting : Setting}

/-! ## Owners -/

/-- A scope that the search for an owner passes. -/
def IsPassed (setting : Setting) (id : ScopeId) : Prop :=
  match setting.table.function? id with
  | some function => function.hasExpressionBody = true
  | none => ((setting.table.get? id).any fun scope => scope.kind.bindsThis) = false

/-- What makes a function the owner of an access. -/
structure IsOwner (setting : Setting) (access : MemberAccess)
    (function : FunctionRecord) : Prop where
  found : setting.table.function? function.scope = some function
  inBraces : function.hasExpressionBody = false
  holds : function.bodyContains access.span = true
  around : function.scope ∈ setting.table.ancestors access.scope
  /-- The search for it passes every scope inside it. -/
  passed : ∀ id ∈ setting.table.ancestors access.scope,
    function.scope < id → IsPassed setting id

variable {function : FunctionRecord} {access : MemberAccess} {name : String} {judgement : Judgement}
  {owner : ScopeId}

theorem ownerAmong_ok (wellFormed : setting.table.WellFormed) {span : Span}
    {way : List ScopeId} (owner : ownerAmong setting span way = .ok function) :
    setting.table.function? function.scope = some function ∧ function.hasExpressionBody = false ∧
      function.bodyContains span = true ∧
      ∃ inside around, way = inside ++ function.scope :: around ∧
        ∀ id ∈ inside, IsPassed setting id := by
  induction way with
  | nil => cases owner
  | cons id rest ih =>
    rw [ownerAmong] at owner
    have passOn (isPassed : IsPassed setting id)
        (later : ownerAmong setting span rest = .ok function) :
        setting.table.function? function.scope = some function ∧
          function.hasExpressionBody = false ∧
          function.bodyContains span = true ∧
          ∃ inside around, id :: rest = inside ++ function.scope :: around ∧
            ∀ id ∈ inside, IsPassed setting id := by
      obtain ⟨found, inBraces, holds, inside, around, split, passed⟩ := ih later
      refine ⟨found, inBraces, holds, id :: inside, around, by simp [split], ?_⟩
      intro other member
      rcases List.mem_cons.1 member with rfl | isInside
      · exact isPassed
      · exact passed other isInside
    cases isFunction : setting.table.function? id with
    | some here =>
      simp only [isFunction] at owner
      cases isExpression : here.hasExpressionBody with
      | true =>
        simp only [isExpression, if_true] at owner
        exact passOn (by simp [IsPassed, isFunction, isExpression]) owner
      | false =>
        simp only [isExpression, Bool.false_eq_true, if_false] at owner
        cases contains : here.bodyContains span with
        | false => simp [contains] at owner
        | true =>
          simp only [contains, if_true, Except.ok.injEq] at owner
          subst owner
          have own := wellFormed.scope_of_function? isFunction
          exact ⟨own ▸ isFunction, isExpression, contains, [], rest,
            by simp [own], by simp⟩
    | none =>
      simp only [isFunction] at owner
      cases binds : (setting.table.get? id).any fun scope => scope.kind.bindsThis with
      | true => simp [binds] at owner
      | false =>
        simp only [binds, Bool.false_eq_true, if_false] at owner
        exact passOn (by simp [IsPassed, isFunction, binds]) owner

theorem isOwner_of_owner? (wellFormed : setting.table.WellFormed)
    (owner : owner? setting access = .ok function) :
    IsOwner setting access function := by
  obtain ⟨found, inBraces, holds, inside, outside, way, passed⟩ := ownerAmong_ok wellFormed owner
  refine ⟨found, inBraces, holds, by simp [way], ?_⟩
  intro id member larger
  rw [way, List.mem_append, List.mem_cons] at member
  rcases member with isInside | rfl | isOutside
  · exact passed id isInside
  · exact absurd larger (Nat.lt_irrefl _)
  · have ordered := wellFormed.ancestors_decreasing access.scope
    rw [way, List.pairwise_append, List.pairwise_cons] at ordered
    exact absurd (ordered.2.1.1 id isOutside) (Nat.lt_asymm larger)

theorem IsOwner.member (owner : IsOwner setting access function) :
    function ∈ setting.table.functions :=
  mem_of_function? owner.found

/-- No function in braces lies between an access and its owner. -/
theorem IsOwner.mem_ancestors_of_inBraces (wellFormed : setting.table.WellFormed)
    {other : FunctionRecord} (owner : IsOwner setting access function)
    (isOther : other ∈ setting.table.functions) (inBraces : other.hasExpressionBody = false)
    (around : other.scope ∈ setting.table.ancestors access.scope) :
    other.scope ∈ setting.table.ancestors function.scope := by
  rcases wellFormed.ancestors_linear around owner.around with outer | inner
  · exact outer
  · rcases Nat.lt_or_eq_of_le (wellFormed.le_of_mem_ancestors inner).1 with
      larger | equal
    · have isPassed := owner.passed other.scope around larger
      rw [IsPassed, wellFormed.function?_scope isOther] at isPassed
      simp [inBraces] at isPassed
    · rw [equal] at inner ⊢
      exact inner

/-! ## Candidates -/

theorem candidateName?_eq_some_iff : candidateName? setting access = some name ↔
      access.chain = ⟨setting.self.root, ["props", name]⟩ := by
  rw [candidateName?]
  obtain ⟨⟨root, path⟩, span, scope, use⟩ := access
  match path with
  | [] => simp
  | [_] => simp
  | [props, property] =>
    by_cases matches_ : root = setting.self.root ∧ props = "props"
    · simp [matches_]
    · simp only [matches_, if_false, reduceCtorEq, false_iff]
      intro equal
      simp only [MemberChain.mk.injEq, List.cons.injEq] at equal
      exact matches_ ⟨equal.1, equal.2.1⟩
  | _ :: _ :: _ :: _ => simp

/-- What makes an access a candidate. -/
theorem mem_candidates_iff {candidate : Candidate} : candidate ∈ candidates setting ↔
      candidate.access ∈ setting.table.members ∧
        candidateName? setting candidate.access = some candidate.name ∧
        Text.isReserved candidate.name = false ∧
        ∃ function, owner? setting candidate.access = .ok function ∧
          function.scope = candidate.owner := by
  obtain ⟨access, name, owner⟩ := candidate
  simp only [candidates, classified, List.mem_filterMap, Option.map_eq_some_iff]
  constructor
  · rintro ⟨_, ⟨found, member, named, isName, rfl⟩, classification⟩
    rw [classify] at classification
    split at classification
    · cases classification
    · rename_i free
      split at classification
      · rename_i function isOwner
        cases classification
        exact ⟨member, isName, by simpa using free, function, isOwner, rfl⟩
      · cases classification
  · rintro ⟨member, isName, free, function, isOwner, rfl⟩
    refine ⟨_, ⟨access, member, name, isName, rfl⟩, ?_⟩
    simp [classify, free, isOwner, Except.toOption]

theorem mem_judgements_iff {all : List Candidate} : judgement ∈ judgements setting all function ↔
      ∃ candidate ∈ all, candidate.owner = function.scope ∧
        judgement = ⟨candidate.access, candidate.name, verdict setting function candidate⟩ := by
  simp only [judgements, ownCandidates, List.mem_map, List.mem_flatMap,
    Text.mem_nameSet, List.mem_filter, beq_iff_eq]
  constructor
  · rintro ⟨candidate, ⟨name, _, ⟨member, owned⟩, named⟩, rfl⟩
    exact ⟨candidate, member, owned, rfl⟩
  · rintro ⟨candidate, member, owned, rfl⟩
    exact ⟨candidate, ⟨candidate.name, ⟨candidate, ⟨member, owned⟩, rfl⟩,
      ⟨member, owned⟩, rfl⟩, rfl⟩

/-- A verdict that the planner reaches on an access of a function. -/
structure Judged (setting : Setting) (function : FunctionRecord)
    (judgement : Judgement) : Prop where
  member : function ∈ setting.table.functions
  judged : judgement ∈ judgements setting (candidates setting) function

/-- What it takes to reach a verdict on an access. -/
theorem judged_iff (wellFormed : setting.table.WellFormed) : Judged setting function judgement ↔
      judgement.access ∈ setting.table.members ∧
        candidateName? setting judgement.access = some judgement.name ∧
        Text.isReserved judgement.name = false ∧
        owner? setting judgement.access = .ok function ∧
        judgement.verdict = verdict setting function
          ⟨judgement.access, judgement.name, function.scope⟩ := by
  constructor
  · rintro ⟨isFunction, judged⟩
    obtain ⟨candidate, isCandidate, owned, rfl⟩ := mem_judgements_iff.1 judged
    obtain ⟨member, named, free, owner, isOwner, own⟩ := mem_candidates_iff.1 isCandidate
    have same : owner = function := by
      have first := wellFormed.function?_scope (isOwner_of_owner? wellFormed isOwner).member
      have second := wellFormed.function?_scope isFunction
      rw [own, owned, second] at first
      exact (Option.some.inj first).symm
    subst same
    exact ⟨member, named, free, isOwner, by rw [own]⟩
  · obtain ⟨access, name, reached⟩ := judgement
    rintro ⟨member, named, free, isOwner, isVerdict⟩
    have isCandidate : ⟨access, name, function.scope⟩ ∈ candidates setting :=
      mem_candidates_iff.2 ⟨member, named, free, function, isOwner, rfl⟩
    refine ⟨(isOwner_of_owner? wellFormed isOwner).member,
      mem_judgements_iff.2 ⟨_, isCandidate, rfl, ?_⟩⟩
    exact congrArg (Judgement.mk access name) isVerdict

/-- Everything that is known of an access when its verdict is reached. -/
theorem Judged.candidate (wellFormed : setting.table.WellFormed)
    (judged : Judged setting function judgement) :
    judgement.access ∈ setting.table.members ∧
      candidateName? setting judgement.access = some judgement.name ∧
      IsOwner setting judgement.access function ∧
      judgement.verdict = verdict setting function
        ⟨judgement.access, judgement.name, function.scope⟩ := by
  obtain ⟨member, named, _, isOwner, isVerdict⟩ := (judged_iff wellFormed).1 judged
  exact ⟨member, named, isOwner_of_owner? wellFormed isOwner, isVerdict⟩

/-! ## Blockers -/

private theorem blocked_eq_none_iff {condition : Bool} {reason : SkipReason}
    {rest : Option SkipReason} :
    (if condition then some reason else rest) = none ↔ condition = false ∧ rest = none := by
  cases condition <;> simp

/-- Something within a scope writes or deletes what a chain spells. -/
def IsChanged (setting : Setting) (chain : MemberChain) (owner : ScopeId) :
    Prop :=
  ∃ access ∈ setting.table.members, access.chain = chain ∧
    access.access ≠ .read ∧ owner ∈ setting.table.ancestors access.scope

theorem arePropsChanged_iff : arePropsChanged setting owner = true ↔
      IsChanged setting setting.props owner := by
  simp [arePropsChanged, IsChanged, and_assoc]

theorem change?_eq_none_iff :
    change? setting owner name = none ↔
      ¬ IsChanged setting ⟨setting.self.root, ["props", name]⟩ owner := by
  rw [change?, List.findSome?_eq_none_iff]
  constructor
  · rintro unchanged ⟨access, member, isName, notRead, within⟩
    have same := unchanged access member
    rw [if_pos ⟨candidateName?_eq_some_iff.2 isName, isWithin_iff.2 within⟩] at same
    split at same
    · next isRead => exact notRead isRead
    · cases same
    · cases same
  · intro unchanged access member
    split
    · next changes =>
      have isRead : access.access = .read := by
        apply Decidable.byContradiction
        intro notRead
        exact unchanged ⟨access, member, candidateName?_eq_some_iff.1 changes.1,
          notRead, isWithin_iff.1 changes.2⟩
      rw [isRead]
    · rfl

theorem isShadowed_iff (wellFormed : setting.table.WellFormed) :
    isShadowed setting owner name = true ↔ ∃ id, owner ∈ setting.table.ancestors id ∧
        ∃ site ∈ setting.table.sitesIn id name, site.isPropertyOf name setting.props = false := by
  rw [isShadowed, List.any_eq_true]
  constructor
  · rintro ⟨⟨id, site⟩, member, other⟩
    obtain ⟨within, isSite⟩ := wellFormed.mem_declarationsWithin_iff.1 member
    exact ⟨id, within, site, isSite, by simpa using other⟩
  · rintro ⟨id, within, site, isSite, other⟩
    exact ⟨(id, site), wellFormed.mem_declarationsWithin_iff.2 ⟨within, isSite⟩,
      by simpa using other⟩

theorem functionBlocker?_eq_none_iff : functionBlocker? setting function = none ↔
      arePropsChanged setting function.scope = false ∧ hasStraySuper setting function = false ∧
        isSelfShadowed setting function.scope = false := by
  simp only [functionBlocker?, blocked_eq_none_iff, and_true]

theorem nameBlocker?_eq_none_iff : nameBlocker? setting function name = none ↔
      setting.self.root ≠ .name name ∧
        change? setting function.scope name = none ∧
        isShadowed setting function.scope name = false := by
  rw [nameBlocker?]
  by_cases collides : setting.self.root = .name name
  · simp [collides]
  · cases change? setting function.scope name <;>
      cases isShadowed setting function.scope name <;> simp [collides]

theorem injectionBlocker?_eq_none_iff : injectionBlocker? setting function access name = none ↔
      readsFree setting function name = false ∧
        match mergeTarget? setting function with
        | some target =>
          target.hasKey name = false ∧ target.statement.stop ≤ access.span.start
        | none =>
          propsPatterns setting function = [] ∧ function.firstStatement.isSome = true := by
  rw [injectionBlocker?]
  cases readsFree setting function name with
  | true => simp
  | false =>
    cases mergeTarget? setting function with
    | some target =>
      cases isKey : target.hasKey name with
      | true => simp [isKey]
      | false => simp [isKey]
    | none =>
      cases propsPatterns setting function <;>
        cases function.firstStatement <;> simp

theorem bindingBlocker?_eq_none_iff {resolution : Resolution} :
    bindingBlocker? setting access name resolution = none ↔
      (∀ site ∈ resolution.sites, site.isPropertyOf name setting.props = true) ∧
        (∀ site ∈ resolution.sites, site.declaredEnd ≤ access.span.start) ∧
        sameSelf setting resolution.scope access.scope = true ∧
        (∃ function, setting.table.enclosingFunction? resolution.scope = some function ∧
            ∀ site ∈ resolution.sites, isUnconditional function site = true) ∧
        setting.table.isMutated resolution.scope name = false := by
  simp only [bindingBlocker?, blocked_eq_none_iff, Bool.not_eq_false',
    List.all_eq_true, List.any_eq_false, decide_eq_true_eq, Nat.not_lt,
    Option.any_eq_true, and_true]

/-! ## Verdicts -/

/-- An access becomes a name exactly if none of the checks objects. -/
theorem verdict_eq_iff {candidate : Candidate} {wanted : Verdict}
    (replaces : wanted.isReplaced = true) :
    verdict setting function candidate = wanted ↔ functionBlocker? setting function = none ∧
        nameBlocker? setting function candidate.name = none ∧
        isBeforeSuper function candidate.access = false ∧
        match setting.table.resolve candidate.access.scope candidate.name with
        | some resolution =>
          bindingBlocker? setting candidate.access candidate.name resolution =
            none ∧ wanted = .reused resolution.scope
        | none =>
          injectionBlocker? setting function candidate.access candidate.name =
            none ∧ wanted = .injected := by
  have notLeft (reason : SkipReason) : Verdict.left reason ≠ wanted := by
    rintro rfl
    cases replaces
  rw [verdict]
  cases functionBlocker? setting function with
  | some reason => simp [notLeft]
  | none =>
    cases nameBlocker? setting function candidate.name with
    | some reason => simp [notLeft]
    | none =>
      simp only [judge]
      cases isBeforeSuper function candidate.access with
      | true => simp [notLeft]
      | false =>
        cases setting.table.resolve candidate.access.scope candidate.name with
        | some resolution =>
          cases blocked : bindingBlocker? setting candidate.access
            candidate.name resolution <;> simp [blocked, notLeft, eq_comm]
        | none =>
          cases injectionBlocker? setting function candidate.access candidate.name <;>
            simp [notLeft, eq_comm]

theorem verdict_eq_injected_iff {candidate : Candidate} :
    verdict setting function candidate = .injected ↔ functionBlocker? setting function = none ∧
        nameBlocker? setting function candidate.name = none ∧
        isBeforeSuper function candidate.access = false ∧
        setting.table.resolve candidate.access.scope candidate.name = none ∧
        injectionBlocker? setting function candidate.access candidate.name = none := by
  rw [verdict_eq_iff rfl]
  cases setting.table.resolve candidate.access.scope candidate.name <;> simp

theorem verdict_eq_reused_iff {candidate : Candidate} {scope : ScopeId} :
    verdict setting function candidate = .reused scope ↔ functionBlocker? setting function = none ∧
        nameBlocker? setting function candidate.name = none ∧
        isBeforeSuper function candidate.access = false ∧
        ∃ resolution, setting.table.resolve candidate.access.scope candidate.name =
            some resolution ∧
          bindingBlocker? setting candidate.access candidate.name resolution = none ∧
          resolution.scope = scope := by
  rw [verdict_eq_iff rfl]
  cases setting.table.resolve candidate.access.scope candidate.name with
  | none => simp
  | some resolution =>
    simp only [Verdict.reused.injEq, Option.some.injEq, exists_eq_left']
    constructor
    · rintro ⟨function, name, super, binding, rfl⟩
      exact ⟨function, name, super, binding, rfl⟩
    · rintro ⟨function, name, super, binding, rfl⟩
      exact ⟨function, name, super, binding, rfl⟩

end Destructure

end Codemod
