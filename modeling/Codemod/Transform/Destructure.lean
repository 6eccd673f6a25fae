import Codemod.Scope.Table
import Codemod.Text.Lines
import Codemod.Text.Order
import Codemod.Transform.Basic

/-!
# Property reads to local names

Reads of `this.props.name` become reads of a local `name`, which one
declaration `const { name } = this.props;` at the top of the owning function
binds.  The owner of an access is the nearest function with a body in braces
that shares its `this`.

Every candidate access gets one verdict: it is left alone for a reason, it
reuses a visible binding, or it needs a new one.  The edits and the log of a
function are read off its verdicts.
-/

namespace Codemod.Destructure

def name : String := "props-to-destructuring"

/-- What is looked at: a text, its scopes and the caller's choices. -/
structure Setting where
  source : List Char
  style : Style
  self : SelfReference
  table : ScopeTable

namespace Setting

def props (setting : Setting) : MemberChain :=
  setting.self.props

end Setting

/-- What becomes of an access. -/
inductive Verdict where
  /-- The access stays as it is. -/
  | left (reason : SkipReason)
  /-- The access becomes a name that a scope already binds. -/
  | reused (scope : ScopeId)
  /-- The access becomes a name that has to be bound. -/
  | injected
  deriving DecidableEq, Repr

namespace Verdict

/-- Whether the access becomes a name. -/
def isReplaced : Verdict → Bool
  | left _ => false
  | reused _ => true
  | injected => true

end Verdict

/-- The property that an access reads, if it is one of the component's. -/
def candidateName? (setting : Setting) (access : MemberAccess) : Option String :=
  match access.chain with
  | ⟨root, [props, property]⟩ =>
    if root = setting.self.root ∧ props = "props" then some property else none
  | _ => none

/-! ## Owners -/

/-- The owner of an access among scopes from the innermost outwards. -/
def ownerAmong (setting : Setting) (span : Span) :
    List ScopeId → Except SkipReason FunctionRecord
  | [] => .error .noEnclosingFunction
  | id :: rest =>
    match setting.table.function? id with
    | some function =>
      if function.hasExpressionBody then ownerAmong setting span rest
      else if function.bodyContains span then .ok function
      else .error .inParameters
    | none =>
      if (setting.table.get? id).any fun scope => scope.kind.bindsThis then
        .error .noEnclosingFunction
      else ownerAmong setting span rest

/-- The function whose body would hold the declaration for an access. -/
def owner? (setting : Setting) (access : MemberAccess) :
    Except SkipReason FunctionRecord :=
  ownerAmong setting access.span (setting.table.ancestors access.scope)

/-- An access that could become a name, with its name and its owner. -/
structure Candidate where
  access : MemberAccess
  name : String
  owner : ScopeId
  deriving DecidableEq, Repr

/-- The candidate that an access is, or why it is none. -/
def classify (setting : Setting) (access : MemberAccess) (name : String) :
    Except SkipReason Candidate :=
  if Text.isReserved name then .error .reservedWord
  else
    match owner? setting access with
    | .ok function => .ok ⟨access, name, function.scope⟩
    | .error reason => .error reason

/-- Every access of a property with what it is classified as, in order. -/
def classified (setting : Setting) :
    List (MemberAccess × Except SkipReason Candidate) :=
  setting.table.members.filterMap fun access =>
    (candidateName? setting access).map fun name =>
      (access, classify setting access name)

def candidates (setting : Setting) : List Candidate :=
  (classified setting).filterMap fun entry => entry.2.toOption

/-- The log of the accesses that are no candidates. -/
def unownedLog (setting : Setting) : List Event :=
  (classified setting).filterMap fun entry =>
    match entry.2 with
    | .ok _ => none
    | .error reason => some (.skipped name entry.1.span reason)

/-! ## What rules out a whole function or a name -/

/-- Whether the properties themselves are changed within a scope. -/
def arePropsChanged (setting : Setting) (owner : ScopeId) : Bool :=
  setting.table.members.any fun access =>
    access.chain == setting.props && access.access != .read &&
      setting.table.isWithin access.scope owner

/-- Whether the parent constructor is called outside its own statement. -/
def hasStraySuper (setting : Setting) (function : FunctionRecord) : Bool :=
  setting.table.superCalls.any fun call =>
    setting.table.isWithin call.scope function.scope &&
      setting.table.thisScope call.scope ==
        setting.table.thisScope function.scope &&
      !function.inSuperStatement call.span

/-- Whether the self reference is a name that a scope declares or assigns to. -/
def isSelfShadowed (setting : Setting) (owner : ScopeId) : Bool :=
  match setting.self with
  | .this => false
  | .name self _ =>
    !(setting.table.declarationsWithin owner self).isEmpty ||
      setting.table.references.any fun reference =>
        reference.name == self && reference.access == .write &&
          setting.table.isWithin reference.scope owner

/-- Why no access of a function becomes a name. -/
def functionBlocker? (setting : Setting) (function : FunctionRecord) :
    Option SkipReason :=
  if arePropsChanged setting function.scope then some .propsReassigned
  else if hasStraySuper setting function then some .conditionalSuperCall
  else if isSelfShadowed setting function.scope then some .selfReferenceShadowed
  else none

/-- How the property of a name is changed within a scope, if it is. -/
def change? (setting : Setting) (owner : ScopeId) (name : String) :
    Option SkipReason :=
  setting.table.members.findSome? fun access =>
    if candidateName? setting access = some name ∧
        setting.table.isWithin access.scope owner then
      match access.access with
      | .read => none
      | .write => some .writeTarget
      | .delete => some .deleteOperand
    else none

/-- Whether a scope declares the name other than as a property. -/
def isShadowed (setting : Setting) (owner : ScopeId) (name : String) : Bool :=
  (setting.table.declarationsWithin owner name).any fun entry =>
    !entry.2.isPropertyOf name setting.props

/-- Why no access of a name in a function becomes a name. -/
def nameBlocker? (setting : Setting) (function : FunctionRecord)
    (name : String) : Option SkipReason :=
  if setting.self.root = .name name then some .selfReferenceCollision
  else
    match change? setting function.scope name with
    | some reason => some reason
    | none =>
      if isShadowed setting function.scope name then some .shadowedBinding
      else none

/-- Whether a function reads a name that nothing declares. -/
def readsFree (setting : Setting) (function : FunctionRecord) (name : String) :
    Bool :=
  setting.table.unresolvedReferences.any fun reference =>
    reference.name == name && setting.table.isWithin reference.scope function.scope

/-! ## Verdicts -/

/-- Whether two scopes agree on what the self reference means. -/
def sameSelf (setting : Setting) (first second : ScopeId) : Bool :=
  match setting.self with
  | .this => setting.table.thisScope first == setting.table.thisScope second
  | .name self _ =>
    ((setting.table.resolve first self).map (·.scope)) ==
      ((setting.table.resolve second self).map (·.scope))

/-- Whether a site lies in a statement of a body that takes an object apart. -/
def isUnconditional (function : FunctionRecord) (site : Site) : Bool :=
  function.destructurings.any fun destructuring =>
    destructuring.statement.start ≤ site.span.start &&
      site.declaredEnd ≤ destructuring.statement.stop

/-- Why an access cannot reuse the binding that it sees. -/
def bindingBlocker? (setting : Setting) (access : MemberAccess) (name : String)
    (resolution : ScopeTable.Resolution) : Option SkipReason :=
  if !resolution.sites.all fun site => site.isPropertyOf name setting.props then
    some .unsafeBinding
  else if resolution.sites.any fun site =>
      access.span.start < site.declaredEnd then some .declaredAfterUse
  else if !sameSelf setting resolution.scope access.scope then some .differentThis
  else if !(setting.table.enclosingFunction? resolution.scope).any fun function =>
      resolution.sites.all (isUnconditional function) then
    some .conditionalBinding
  else if setting.table.isMutated resolution.scope name then some .reassigned
  else none

/-- The statements of a body that take the component's properties apart. -/
def propsPatterns (setting : Setting) (function : FunctionRecord) :
    List Destructuring :=
  function.destructurings.filter fun destructuring =>
    destructuring.value == some setting.props

/-- The pattern that takes up new names, if there is one. -/
def mergeTarget? (setting : Setting) (function : FunctionRecord) :
    Option Destructuring :=
  (propsPatterns setting function).find? fun destructuring =>
    !destructuring.hasRest

/-- Why a name cannot be bound for an access. -/
def injectionBlocker? (setting : Setting) (function : FunctionRecord)
    (access : MemberAccess) (name : String) : Option SkipReason :=
  if readsFree setting function name then some .capturesFreeReference
  else
    match mergeTarget? setting function with
    | some target =>
      if target.hasKey name then some .mergeTargetAliased
      else if access.span.start < target.statement.stop then
        some .mergeTargetAfterUse
      else none
    | none =>
      if !(propsPatterns setting function).isEmpty then some .mergeTargetHasRest
      else if function.firstStatement.isNone then some .noEnclosingFunction
      else none

/-- Whether an access runs before the parent constructor has returned. -/
def isBeforeSuper (function : FunctionRecord) (access : MemberAccess) : Bool :=
  function.superStatement.any fun call => access.span.start < call.stop

/-- What becomes of an access whose name is not ruled out. -/
def judge (setting : Setting) (function : FunctionRecord)
    (access : MemberAccess) (name : String) : Verdict :=
  if isBeforeSuper function access then .left .beforeSuperCall
  else
    match setting.table.resolve access.scope name with
    | some resolution =>
      match bindingBlocker? setting access name resolution with
      | some reason => .left reason
      | none => .reused resolution.scope
    | none =>
      match injectionBlocker? setting function access name with
      | some reason => .left reason
      | none => .injected

structure Judgement where
  access : MemberAccess
  name : String
  verdict : Verdict
  deriving DecidableEq, Repr

/-- The candidates of a function, by name and then in order. -/
def ownCandidates (all : List Candidate) (function : FunctionRecord) :
    List Candidate :=
  let own := all.filter fun candidate => candidate.owner == function.scope
  (Text.nameSet (own.map Candidate.name)).flatMap fun name =>
    own.filter fun candidate => candidate.name == name

def verdict (setting : Setting) (function : FunctionRecord)
    (candidate : Candidate) : Verdict :=
  match functionBlocker? setting function with
  | some reason => .left reason
  | none =>
    match nameBlocker? setting function candidate.name with
    | some reason => .left reason
    | none => judge setting function candidate.access candidate.name

def judgements (setting : Setting) (all : List Candidate)
    (function : FunctionRecord) : List Judgement :=
  (ownCandidates all function).map fun candidate =>
    ⟨candidate.access, candidate.name, verdict setting function candidate⟩

/-! ## Edits -/

/-- The names that have to be bound, in increasing order. -/
def injectedNames (judgements : List Judgement) : List String :=
  Text.nameSet ((judgements.filter fun judgement =>
    judgement.verdict == .injected).map Judgement.name)

def replacements (judgements : List Judgement) : List Edit :=
  (judgements.filter fun judgement => judgement.verdict.isReplaced).map
    fun judgement => .replace judgement.access.span judgement.name.toList

def mergeEdit (setting : Setting) (target : Destructuring)
    (names : List String) : Edit :=
  let items := names.map String.toList
  let pattern := target.pattern
  match target.lastEnd with
  | none => .replace pattern (setting.style.braced items)
  | some stop =>
    let isMultiline :=
      Text.isMultiline setting.source pattern.start pattern.stop
    let separator :=
      if isMultiline then ",\n".toList ++ Text.lineIndent setting.source stop
      else ", ".toList
    let hasComma := (Text.slice setting.source stop pattern.stop).contains ','
    let ending :=
      if isMultiline && setting.style.trailingComma && !hasComma then [',']
      else []
    .insert stop (items.flatMap (separator ++ ·) ++ ending)

/-- What separates a new statement from the one at an offset. -/
def statementGap (source : List Char) (offset : Nat) : List Char :=
  if Text.startsLine source offset then '\n' :: Text.lineIndent source offset
  else [' ']

/-- Declare names at the top of a body, after the parent constructor. -/
def declarationEdit? (setting : Setting) (function : FunctionRecord)
    (names : List String) : Option Edit :=
  let declaration := "const ".toList ++
    setting.style.braced (names.map String.toList) ++ " = ".toList ++
    setting.props.text.toList ++ [';']
  match function.superStatement with
  | some call =>
    some (.insert call.stop (statementGap setting.source call.start ++ declaration))
  | none =>
    function.firstStatement.map fun start =>
      .insert start (declaration ++ statementGap setting.source start)

def bindingEdit? (setting : Setting) (function : FunctionRecord)
    (names : List String) : Option Edit :=
  if names.isEmpty then none
  else
    match mergeTarget? setting function with
    | some target => some (mergeEdit setting target names)
    | none => declarationEdit? setting function names

def verdictLog (judgements : List Judgement) : List Event :=
  judgements.filterMap fun judgement =>
    match judgement.verdict with
    | .left reason => some (.skipped name judgement.access.span reason)
    | _ => none

def planFunction (setting : Setting) (all : List Candidate)
    (function : FunctionRecord) : Plan :=
  let judgements := judgements setting all function
  let names := injectedNames judgements
  let replaced := replacements judgements
  let planned :=
    if replaced.isEmpty then []
    else
      [Event.planned function.span.start replaced.length names
        (mergeTarget? setting function).isSome]
  ⟨replaced ++ (bindingEdit? setting function names).toList,
    verdictLog judgements ++ planned⟩

def planAll (setting : Setting) : Plan :=
  let all := candidates setting
  ⟨[], unownedLog setting⟩ ++
    Plan.concat (setting.table.functions.map (planFunction setting all))

end Codemod.Destructure

namespace Codemod.Transform

/-- Replace property reads by local names. -/
def propsToDestructuring : Transform where
  name := Destructure.name
  description :=
    "Replace `this.props.<name>` reads with a destructured local binding"
  paths := []
  changesModule := true
  plan program options :=
    Destructure.planAll {
      source := program.source
      style := options.style
      self := options.selfReference
      table := ScopeTable.ofProgram program.root }

end Codemod.Transform
