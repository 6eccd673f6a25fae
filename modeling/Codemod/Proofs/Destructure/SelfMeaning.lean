import Codemod.Proofs.Destructure.Verdicts
import Codemod.Proofs.Scope.Formation

/-!
# What the self reference means

A name that takes the place of an access was read off the self reference
somewhere else: at the top of the owner, or where a reused binding was
declared.  Both places have to mean the same by it as the access does.

The two kinds of self references need two arguments.  For `this`, the search
for an owner passes only scopes that have no `this` of their own.  For a name,
nothing within the owner declares it, so whatever it resolves to lies outside.
In both cases the first scope that counts, on the way outwards, is not met
before the owner, which is what `find?_ancestors_eq` is about.
-/

namespace Codemod

namespace ScopeTable

variable {table : ScopeTable}

/-- A search outwards finds nothing new on the way to a scope that it passes. -/
theorem WellFormed.find?_ancestors_eq (wellFormed : table.WellFormed)
    {id owner : ScopeId} {test : ScopeId → Bool}
    (around : owner ∈ table.ancestors id)
    (passed : ∀ inner ∈ table.ancestors id, owner < inner → test inner = false) :
    (table.ancestors id).find? test = (table.ancestors owner).find? test := by
  obtain ⟨inside, way, larger⟩ := wellFormed.ancestors_split around
  have noneInside : inside.find? test = none := by
    rw [List.find?_eq_none]
    intro inner isInside
    have fails := passed inner (way ▸ List.mem_append_left _ isInside) (larger inner isInside)
    simp [fails]
  rw [way, List.find?_append, noneInside, Option.none_or]

/-- The function of a record without braces has no `this` of its own. -/
theorem bindsThis_eq_false_of_hasExpressionBody {root : Node}
    (isText : root.kind = .program) {function : FunctionRecord}
    (member : function ∈ (ofProgram root).functions)
    (isExpression : function.hasExpressionBody = true) :
    ((ofProgram root).get? function.scope).any (fun scope => scope.kind.bindsThis) = false := by
  obtain ⟨node, _, record⟩ := exists_isRecord isText member
  obtain ⟨scope, found, isKind⟩ := record.kind
  have isArrow : function.isArrow = true :=
    Node.isArrow_of_hasExpressionBody record.shape isExpression
  rw [isArrow, if_pos rfl] at isKind
  rw [found, Option.any_some, isKind]
  rfl

end ScopeTable

namespace Destructure

open ScopeTable

variable {program : Program} {options : TransformOptions}

/-- The search for an owner passes no scope with a `this` of its own. -/
theorem IsPassed.bindsThis_eq_false (isText : program.root.kind = .program)
    {id : ScopeId} (passed : IsPassed (.ofProgram program options) id) :
    ((ofProgram program.root).get? id).any (fun scope => scope.kind.bindsThis) = false := by
  rw [IsPassed] at passed
  split at passed
  · next function isFunction =>
    obtain ⟨member, rfl⟩ :=
      (ScopeTable.wellFormed_ofProgram program.root).function?_eq_some_iff.1 isFunction
    exact bindsThis_eq_false_of_hasExpressionBody isText member passed
  · exact passed

variable {function : FunctionRecord}

/-- An access and its owner see the same `this`. -/
theorem IsOwner.thisScope_eq (isText : program.root.kind = .program) {access : MemberAccess}
    (owner : IsOwner (.ofProgram program options) access function) :
    (ofProgram program.root).thisScope access.scope =
      (ofProgram program.root).thisScope function.scope := by
  have sameWay := (wellFormed_ofProgram program options).find?_ancestors_eq owner.around
    fun inner isAround larger =>
      (owner.passed inner isAround larger).bindsThis_eq_false isText
  exact congrArg (Option.getD · ScopeTable.root) sameWay

variable {setting : Setting}

/-- A name that nothing within a scope declares means the same in and at it. -/
theorem declaringScope?_eq_of_isSelfShadowed_eq_false
    (wellFormed : setting.table.WellFormed) {self : String}
    {isValid : isSelfName self = true} (isSelf : setting.self = .name self isValid)
    {id owner : ScopeId} (around : owner ∈ setting.table.ancestors id)
    (unshadowed : isSelfShadowed setting owner = false) :
    setting.table.declaringScope? id self = setting.table.declaringScope? owner self := by
  rw [isSelfShadowed, isSelf] at unshadowed
  have undeclared : (setting.table.declarationsWithin owner self).isEmpty = true := by
    simp only [Bool.or_eq_false_iff, Bool.not_eq_false'] at unshadowed
    exact unshadowed.1
  rw [declaringScope?_eq_find?, declaringScope?_eq_find?]
  apply wellFormed.find?_ancestors_eq around
  intro inner isAround larger
  apply wellFormed.declarationsWithin_isEmpty_iff.1 undeclared
  rcases wellFormed.ancestors_linear isAround around with isOuter | isInner
  · exact absurd (wellFormed.le_of_mem_ancestors isOuter).1 (Nat.not_le.2 larger)
  · exact isInner

/-- A reused binding means the same by the self reference as the access. -/
theorem Judged.sameSelf_of_reused (wellFormed : setting.table.WellFormed) {judgement : Judgement}
    {scope : ScopeId} (judged : Judged setting function judgement)
    (reused : judgement.verdict = .reused scope) :
    sameSelf setting scope judgement.access.scope = true := by
  obtain ⟨_, _, _, isVerdict⟩ := judged.candidate wellFormed
  rw [isVerdict] at reused
  obtain ⟨_, _, _, resolution, _, unblocked, rfl⟩ := verdict_eq_reused_iff.1 reused
  exact (bindingBlocker?_eq_none_iff.1 unblocked).2.2.1

/--
An access that becomes a name, its owner and the scope of a binding that it
reuses agree on the self reference.
-/
theorem replaced_accesses_keep_self (program : Program) (options : TransformOptions)
    (isText : program.root.kind = .program) {function : FunctionRecord}
    {judgement : Judgement}
    (judged : Judged (.ofProgram program options) function judgement)
    (replaced : judgement.verdict.isReplaced = true) :
    let table := ScopeTable.ofProgram program.root
    (options.selfReference = .this →
      table.thisScope judgement.access.scope = table.thisScope function.scope ∧
      ∀ scope, judgement.verdict = .reused scope →
        table.thisScope scope = table.thisScope function.scope) ∧
    (∀ self isValid, options.selfReference = .name self isValid →
      table.declaringScope? judgement.access.scope self =
        table.declaringScope? function.scope self ∧
      ∀ scope, judgement.verdict = .reused scope →
        table.declaringScope? scope self =
          table.declaringScope? function.scope self) := by
  intro table
  have wellFormed := wellFormed_ofProgram program options
  obtain ⟨_, _, owner, isVerdict⟩ := judged.candidate wellFormed
  constructor
  · intro isThis
    have sameThis : table.thisScope judgement.access.scope =
        table.thisScope function.scope := owner.thisScope_eq isText
    refine ⟨sameThis, fun scope reused => ?_⟩
    have agrees := judged.sameSelf_of_reused wellFormed reused
    rw [sameSelf, show (Setting.ofProgram program options).self = .this from isThis,
      beq_iff_eq] at agrees
    exact agrees.trans sameThis
  · intro self isValid isName
    have unblocked := ((verdict_eq_iff replaced).1 isVerdict.symm).1
    have unshadowed := (functionBlocker?_eq_none_iff.1 unblocked).2.2
    have sameName : table.declaringScope? judgement.access.scope self =
        table.declaringScope? function.scope self :=
      declaringScope?_eq_of_isSelfShadowed_eq_false wellFormed isName owner.around
        unshadowed
    refine ⟨sameName, fun scope reused => ?_⟩
    have agrees := judged.sameSelf_of_reused wellFormed reused
    rw [sameSelf,
      show (Setting.ofProgram program options).self = .name self isValid from isName,
      beq_iff_eq] at agrees
    exact agrees.trans sameName

/-- A read in a nested arrow function that can reuse the name of the outer one. -/
def nestedRead : Option Program :=
  parseProgram .plain
    "function f() { const { x } = this.props; return () => { return this.props.x; }; }".toList

/-- The read, the arrow function and the reused name see the `this` of the outer function. -/
theorem replaced_accesses_keep_self_in_nestedRead :
    ∃ program, nestedRead = some program ∧ ∃ function judgement,
      Judged (.ofProgram program .standard) function judgement ∧
      judgement.verdict = .reused 1 ∧ function.scope = 2 ∧
      (ofProgram program.root).thisScope judgement.access.scope =
        (ofProgram program.root).thisScope 2 ∧
      (ofProgram program.root).thisScope 1 = (ofProgram program.root).thisScope 2 := by
  obtain ⟨program, parsed, isText, function, member, judgement, judged, reused, isScope⟩ :
      ∃ program ∈ nestedRead, program.root.kind = .program ∧
        ∃ function ∈ (Setting.ofProgram program .standard).table.functions,
        ∃ judgement ∈ judgements (.ofProgram program .standard)
          (candidates (.ofProgram program .standard)) function,
          judgement.verdict = .reused 1 ∧ function.scope = 2 := by
    decide +kernel
  have replaced : judgement.verdict.isReplaced = true := by rw [reused]; rfl
  obtain ⟨sameThis, sameReused⟩ := (replaced_accesses_keep_self program .standard isText
    ⟨member, judged⟩ replaced).1 rfl
  rw [isScope] at sameThis sameReused
  exact ⟨program, parsed, function, judgement, ⟨member, judged⟩, reused, isScope, sameThis,
    sameReused 1 reused⟩

end Destructure

end Codemod
