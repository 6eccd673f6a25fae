import Codemod.Proofs.Destructure.Verdicts
import Codemod.Proofs.Scope.Functions

/-!
# Snapshots of properties

A local name holds what its property was when the declaration ran.  Reading
the name in place of the property is right as long as nothing changes the
properties in between.  The planner looks for such changes in the function
that owns the access; the declaration is in that function too if the name is
injected, but a reused name may be declared in a function further out.
-/

namespace Codemod.Destructure

open ScopeTable

/-- An access writes or deletes the properties or the one of a name. -/
def Changes (setting : Setting) (name : String) (access : MemberAccess) : Prop :=
  access.access ≠ .read ∧
    (access.chain = setting.props ∨ candidateName? setting access = some name)

instance (setting : Setting) (name : String) (access : MemberAccess) :
    Decidable (Changes setting name access) :=
  inferInstanceAs (Decidable (_ ∧ (_ ∨ _)))

/-- The function whose body declares the name that an access becomes. -/
def binder? (setting : Setting) (owner : FunctionRecord) :
    Verdict → Option FunctionRecord
  | .left _ => none
  | .reused scope => setting.table.enclosingFunction? scope
  | .injected => some owner

variable {setting : Setting} {access : MemberAccess}

/-- A function that no check rules out changes nothing of what it takes. -/
theorem not_changes_of_unblocked {function : FunctionRecord} {name : String}
    (unblocked : functionBlocker? setting function = none)
    (nameUnblocked : nameBlocker? setting function name = none)
    (member : access ∈ setting.table.members)
    (within : function.scope ∈ setting.table.ancestors access.scope) :
    ¬ Changes setting name access := by
  rintro ⟨notRead, isProps | isName⟩
  · have unchanged := (functionBlocker?_eq_none_iff.1 unblocked).1
    rw [Bool.eq_false_iff, ne_eq, arePropsChanged_iff] at unchanged
    exact unchanged ⟨access, member, isProps, notRead, within⟩
  · have unchanged := (nameBlocker?_eq_none_iff.1 nameUnblocked).2.1
    rw [change?_eq_none_iff] at unchanged
    exact unchanged ⟨access, member, candidateName?_eq_some_iff.1 isName, notRead, within⟩

/-- The function that declares a reused name encloses the owner of the access. -/
theorem IsOwner.mem_ancestors_of_reused {program : Program} {options : TransformOptions}
    {owner binder : FunctionRecord} {name : String} {resolution : Resolution}
    (isOwner : IsOwner (.ofProgram program options) access owner)
    (resolved : (Setting.ofProgram program options).table.resolve access.scope name =
      some resolution)
    (enclosing : (Setting.ofProgram program options).table.enclosingFunction?
      resolution.scope = some binder)
    (takes : ∀ site ∈ resolution.sites, isUnconditional binder site = true) :
    binder.scope ∈ (Setting.ofProgram program options).table.ancestors owner.scope := by
  have wellFormed := wellFormed_ofProgram program options
  obtain ⟨member, around⟩ := wellFormed.mem_of_enclosingFunction? enclosing
  obtain ⟨declaring, sites⟩ := resolve_eq_some_iff.1 resolved
  obtain ⟨outer, declares⟩ := mem_ancestors_of_declaringScope? declaring
  refine isOwner.mem_ancestors_of_inBraces wellFormed member ?_
    (wellFormed.mem_ancestors_trans outer around)
  -- An expression takes nothing apart, so it is not what declares the name.
  cases isExpression : binder.hasExpressionBody with
  | false => rfl
  | true =>
    have settled := isSettled_of_mem_functions member isExpression
    rw [ScopeTable.declares, ← sites] at declares
    obtain ⟨site, isSite⟩ := List.exists_mem_of_ne_nil resolution.sites
      (by simpa using declares)
    have impossible := takes site isSite
    simp [isUnconditional, settled] at impossible

/--
The name that an access becomes is declared in the function that owns the
access or in one around it.  Whatever changes the property there does so
outside the owner, so a snapshot that the owner takes itself is never stale.
-/
theorem snapshots_change_only_outside_owner (program : Program)
    (options : TransformOptions) {owner : FunctionRecord} {judgement : Judgement}
    (judged : Judged (.ofProgram program options) owner judgement)
    (replaced : judgement.verdict.isReplaced = true) :
    let setting := Setting.ofProgram program options
    ∃ binder, binder? setting owner judgement.verdict = some binder ∧
      binder.scope ∈ setting.table.ancestors owner.scope ∧
      ∀ access ∈ setting.table.members, Changes setting judgement.name access →
        binder.scope ∈ setting.table.ancestors access.scope →
          owner.scope ∉ setting.table.ancestors access.scope ∧ binder ≠ owner := by
  intro setting
  have wellFormed := wellFormed_ofProgram program options
  obtain ⟨_, _, isOwner, isVerdict⟩ := judged.candidate wellFormed
  obtain ⟨unblocked, nameUnblocked, _, ends⟩ :=
    (verdict_eq_iff replaced).1 isVerdict.symm
  have outside : ∀ access ∈ setting.table.members,
      Changes setting judgement.name access →
        owner.scope ∉ setting.table.ancestors access.scope := by
    intro access member changes within
    exact not_changes_of_unblocked unblocked nameUnblocked member within changes
  obtain ⟨binder, isBinder, around⟩ : ∃ binder,
      binder? setting owner judgement.verdict = some binder ∧
        binder.scope ∈ setting.table.ancestors owner.scope := by
    split at ends
    · next resolution resolved =>
      obtain ⟨accepted, isReused⟩ := ends
      obtain ⟨_, _, _, ⟨binder, enclosing, takes⟩, _⟩ :=
        bindingBlocker?_eq_none_iff.1 accepted
      refine ⟨binder, by rw [isReused]; exact enclosing, ?_⟩
      exact isOwner.mem_ancestors_of_reused resolved enclosing takes
    · refine ⟨owner, by rw [ends.2]; rfl, ?_⟩
      exact wellFormed.mem_ancestors_self (wellFormed.function_lt judged.member)
  refine ⟨binder, isBinder, around, fun access member changes within => ?_⟩
  refine ⟨outside access member changes, ?_⟩
  rintro rfl
  exact outside access member changes within

/-- A function that takes a property, changes it and returns a function that reads it. -/
def staleRead : Option Program :=
  parseProgram .plain
    "function f() { const { x } = this.props; this.props.x = 1;
      return () => { return this.props.x; }; }".toList

/--
In the sample the arrow function's access becomes the name that the function
around it declares, although that function changes the property.
-/
theorem snapshots_change_only_outside_owner_in_staleRead :
    ∃ program, staleRead = some program ∧ ∃ owner judgement binder,
      Judged (.ofProgram program .standard) owner judgement ∧
      judgement.verdict.isReplaced = true ∧
      binder? (.ofProgram program .standard) owner judgement.verdict = some binder ∧
      ∃ access ∈ (Setting.ofProgram program .standard).table.members,
        Changes (.ofProgram program .standard) judgement.name access ∧
        binder.scope ∈
          (Setting.ofProgram program .standard).table.ancestors access.scope ∧
        binder ≠ owner := by
  obtain ⟨program, parsed, owner, member, judgement, judged, replaced, access, isAccess, changes,
    within⟩ : ∃ program ∈ staleRead,
      ∃ owner ∈ (Setting.ofProgram program .standard).table.functions,
        ∃ judgement ∈ judgements (.ofProgram program .standard)
          (candidates (.ofProgram program .standard)) owner,
          judgement.verdict.isReplaced = true ∧
          ∃ access ∈ (Setting.ofProgram program .standard).table.members,
            Changes (.ofProgram program .standard) judgement.name access ∧
            ∀ binder ∈ binder? (.ofProgram program .standard) owner
              judgement.verdict, binder.scope ∈
                (Setting.ofProgram program .standard).table.ancestors
                  access.scope := by
    decide +kernel
  obtain ⟨binder, isBinder, _, outside⟩ := snapshots_change_only_outside_owner
    program .standard ⟨member, judged⟩ replaced
  have inside := within binder isBinder
  exact ⟨program, parsed, owner, judgement, binder, ⟨member, judged⟩, replaced,
    isBinder, access, isAccess, changes, inside,
    (outside access isAccess changes inside).2⟩

end Codemod.Destructure
