import Codemod.Span

/-!
# Event log

What happens during a run besides its result: places left alone and why, plans
made, edits that could not be carried out, filters that did not apply.
-/

namespace Codemod

/-- Why a place is left as it is. -/
inductive SkipReason where
  /-- The name is reserved and cannot be bound. -/
  | reservedWord
  /-- No function with statements shares the access's `this`. -/
  | noEnclosingFunction
  /-- The access stands in the parameters of its function. -/
  | inParameters
  /-- The member is assigned to somewhere in the function. -/
  | writeTarget
  /-- The member is deleted somewhere in the function. -/
  | deleteOperand
  /-- The function declares the name in some other way. -/
  | shadowedBinding
  /-- The visible binding is no plain property of the component. -/
  | unsafeBinding
  /-- The visible binding is declared after the access. -/
  | declaredAfterUse
  /-- The visible binding belongs to another `this`. -/
  | differentThis
  /-- The visible binding need not have been reached. -/
  | conditionalBinding
  /-- The binding is assigned to. -/
  | reassigned
  /-- A new binding would capture a name that is free in the function. -/
  | capturesFreeReference
  /-- The pattern to extend comes after the access. -/
  | mergeTargetAfterUse
  /-- The pattern to extend binds the key under another name. -/
  | mergeTargetAliased
  /-- The only pattern takes all remaining properties. -/
  | mergeTargetHasRest
  /-- The properties themselves are assigned to in the function. -/
  | propsReassigned
  /-- The access runs before the parent constructor. -/
  | beforeSuperCall
  /-- The parent constructor is not called by a statement of its own. -/
  | conditionalSuperCall
  /-- The self reference is declared or assigned to in the function. -/
  | selfReferenceShadowed
  /-- The name is the self reference. -/
  | selfReferenceCollision
  /-- The function uses `this`. -/
  | usesThis
  /-- The function uses its arguments, its parent or its construction target. -/
  | usesFunctionContext
  /-- The parameters are not a single plain name. -/
  | unsupportedParameters
  /-- The parameter is declared again in the body. -/
  | parameterRedeclared
  /-- The parameter is used under another `this`. -/
  | parameterInNestedFunction
  /-- The component is named like its base class. -/
  | baseClassCollision
  /-- The declaration binds more than one name. -/
  | sharedDeclaration
  /-- The component is asynchronous. -/
  | asyncComponent
  /-- The function is called as a constructor. -/
  | constructor
  deriving DecidableEq, Repr

namespace SkipReason

def label : SkipReason → String
  | reservedWord => "reserved-word"
  | noEnclosingFunction => "no-enclosing-function"
  | inParameters => "in-parameters"
  | writeTarget => "write-target"
  | deleteOperand => "delete-operand"
  | shadowedBinding => "shadowed-binding"
  | unsafeBinding => "unsafe-binding"
  | declaredAfterUse => "declared-after-use"
  | differentThis => "different-this"
  | conditionalBinding => "conditional-binding"
  | reassigned => "reassigned"
  | capturesFreeReference => "captures-free-reference"
  | mergeTargetAfterUse => "merge-target-after-use"
  | mergeTargetAliased => "merge-target-aliased"
  | mergeTargetHasRest => "merge-target-has-rest"
  | propsReassigned => "props-reassigned"
  | beforeSuperCall => "before-super-call"
  | conditionalSuperCall => "conditional-super-call"
  | selfReferenceShadowed => "self-reference-shadowed"
  | selfReferenceCollision => "self-reference-collision"
  | usesThis => "uses-this"
  | usesFunctionContext => "uses-function-context"
  | unsupportedParameters => "unsupported-parameters"
  | parameterRedeclared => "parameter-redeclared"
  | parameterInNestedFunction => "parameter-in-nested-function"
  | baseClassCollision => "base-class-collision"
  | sharedDeclaration => "shared-declaration"
  | asyncComponent => "async-component"
  | constructor => "constructor"

end SkipReason

inductive Event where
  /-- A transform leaves a place as it is. -/
  | skipped (transform : String) (span : Span) (reason : SkipReason)
  /-- A function's accesses become names, some of which are bound for them. -/
  | planned (function : Nat) (replaced : Nat) (injected : List String)
      (isMerged : Bool)
  /-- An edit cannot be carried out. -/
  | dropped (span : Span)
  /-- A transform's path filter does not let a file pass. -/
  | rejected (transform : String) (path : String)
  /-- A path filter is not a valid pattern. -/
  | invalidFilter (pattern : String)
  /-- A transform has run. -/
  | finished (transform : String) (edits : Nat) (isChanged : Bool)
  deriving DecidableEq, Repr

end Codemod
