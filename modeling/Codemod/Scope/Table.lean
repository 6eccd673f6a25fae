import Codemod.Scope.Trace

/-!
# Scope tables

The scopes of a program with the names they declare, and every use of a name,
of a member chain and of the parent constructor.  A table is built from the
signals of a walk, one at a time: an announcement is kept until something takes
it up, and the steps are done to the table.  Scopes are numbered in the order
they open, so a scope's parent always has a smaller number.
-/

namespace Codemod

abbrev ScopeId : Type := Nat

inductive ScopeKind where
  | text
  | function
  | arrow
  | block
  | staticBlock
  | classDefinition
  deriving DecidableEq, Repr

namespace ScopeKind

/-- Whether `var` declarations stop at the scope. -/
def holdsVariables : ScopeKind → Bool
  | text => true
  | function => true
  | arrow => true
  | staticBlock => true
  | block => false
  | classDefinition => false

/-- Whether `this` has a meaning of its own in the scope. -/
def bindsThis : ScopeKind → Bool
  | text => true
  | function => true
  | staticBlock => true
  | classDefinition => true
  | arrow => false
  | block => false

def displayName : ScopeKind → String
  | text => "mod"
  | function => "fn"
  | arrow => "arrow"
  | block => "block"
  | staticBlock => "static"
  | classDefinition => "class"

end ScopeKind

/-- A scope and the names it declares, in the order of their declarations. -/
structure Scope where
  id : ScopeId
  parent : Option ScopeId
  kind : ScopeKind
  span : Span
  declarations : List (String × Site)
  deriving DecidableEq, Repr

namespace Scope

def sites (scope : Scope) (name : String) : List Site :=
  (scope.declarations.filter fun entry => entry.1 == name).map (·.2)

def hasBinding (scope : Scope) (name : String) : Bool :=
  scope.declarations.any fun entry => entry.1 == name

def declare (scope : Scope) (name : String) (site : Site) : Scope :=
  { scope with declarations := scope.declarations ++ [(name, site)] }

end Scope

structure Reference where
  name : String
  span : Span
  scope : ScopeId
  access : Access
  deriving DecidableEq, Repr

structure MemberAccess where
  chain : MemberChain
  span : Span
  scope : ScopeId
  access : Access
  deriving DecidableEq, Repr

structure SuperCall where
  span : Span
  scope : ScopeId
  deriving DecidableEq, Repr

structure FunctionRecord extends FunctionShape where
  scope : ScopeId
  deriving DecidableEq, Repr

/-- The scopes of a program and the uses of names in them. -/
structure ScopeTable where
  scopes : List Scope
  references : List Reference
  members : List MemberAccess
  superCalls : List SuperCall
  functions : List FunctionRecord
  /-- The places of the functions in their list, by their scopes. -/
  functionByScope : List (ScopeId × Nat)
  deriving DecidableEq, Repr

namespace ScopeTable

def empty : ScopeTable :=
  ⟨[], [], [], [], [], []⟩

/-- The scope of the whole text. -/
def root : ScopeId := 0

def get? (table : ScopeTable) (id : ScopeId) : Option Scope :=
  table.scopes[id]?

def declare (table : ScopeTable) (id : ScopeId) (name : String) (site : Site) :
    ScopeTable :=
  { table with scopes := table.scopes.modify id fun scope => scope.declare name site }

end ScopeTable

/-! ## Building -/

structure Survey where
  table : ScopeTable
  /-- The open scopes, innermost first. -/
  stack : List ScopeId
  /-- The node entered last. -/
  entered : Span
  /-- A class whose scope is going to open, with the number of open scopes. -/
  expected : Option (Nat × Span)

namespace Survey

def start : Survey :=
  ⟨.empty, [], ⟨0, 0⟩, none⟩

/-- The innermost open scope. -/
def current (survey : Survey) : ScopeId :=
  survey.stack.head?.getD ScopeTable.root

/-- The nearest open scope at which `var` declarations stop. -/
def variableScope (survey : Survey) : ScopeId :=
  (survey.stack.find? fun id =>
    (survey.table.get? id).any fun scope => scope.kind.holdsVariables).getD
      ScopeTable.root

/-- The kind of scope that something opens, a class left aside. -/
def openedKind : Opening → ScopeKind
  | .text => .text
  | .block => .block
  | .staticBlock => .staticBlock
  | .function true _ _ => .arrow
  | .function false _ _ => .function

def declareIn (survey : Survey) (id : ScopeId) (name : String) (site : Site) :
    Survey :=
  { survey with table := survey.table.declare id name site }

/-- The name and the record that a function adds to its own scope. -/
def functionParts : Opening → List (String × Site) × Option FunctionShape
  | .function _ name shape =>
    ((name.toList.map fun entry =>
      (entry.1, ⟨entry.2, .functionName, .direct, none⟩)), shape)
  | _ => ([], none)

/--
Open a scope.  A block that opens at the depth of an expected class is that
class's scope.
-/
def openScope (survey : Survey) (opening : Opening) : Survey :=
  let id := survey.table.scopes.length
  let plain := openedKind opening
  let classSpan :=
    match survey.expected with
    | some (depth, span) =>
      if plain == ScopeKind.block && depth == survey.stack.length then some span else none
    | none => none
  let (names, shape) := functionParts opening
  let scope : Scope := {
    id := id
    parent := survey.stack.head?
    kind := if classSpan.isSome then .classDefinition else plain
    span := classSpan.getD survey.entered
    declarations := names }
  { survey with
    table := { survey.table with
      scopes := survey.table.scopes ++ [scope]
      functions := survey.table.functions ++
        shape.toList.map fun shape => { shape with scope := id }
      functionByScope := (shape.toList.map fun _ => (id, survey.table.functions.length)) ++
        survey.table.functionByScope }
    stack := id :: survey.stack
    expected := if classSpan.isSome then none else survey.expected }

def step (survey : Survey) : Step → Survey
  | .enter span => { survey with entered := span }
  | .openScope opening => survey.openScope opening
  | .closeScope => { survey with stack := survey.stack.tail }
  | .expectClass span =>
    { survey with expected := some (survey.stack.length, span) }
  | .declare reach name site =>
    let here := survey.current
    let hoisted := survey.variableScope
    match reach with
    | .innermost => survey.declareIn here name site
    | .hoisted => survey.declareIn hoisted name site
    | .both =>
      let inner := survey.declareIn here name site
      if hoisted == here then inner else inner.declareIn hoisted name site
  | .reference name span access =>
    { survey with table := { survey.table with
      references := survey.table.references ++
        [⟨name, span, survey.current, access⟩] } }
  | .member chain span access =>
    { survey with table := { survey.table with
      members := survey.table.members ++
        [⟨chain, span, survey.current, access⟩] } }
  | .superCall span =>
    { survey with table := { survey.table with
      superCalls := survey.table.superCalls ++ [⟨span, survey.current⟩] } }

end Survey

/-- What has been announced and not been taken up yet. -/
structure Pending where
  function : Option FunctionShape
  name : Option (String × Span)
  access : Access
  deriving DecidableEq, Repr

namespace Pending

def nothing : Pending :=
  ⟨none, none, .read⟩

/--
The steps that a signal leads to, and what is pending after it.  The scope of a
function takes up its shape and its name, a name or a member takes up the access.
-/
def hear (pending : Pending) : Signal → List Step × Pending
  | .step step => ([step], pending)
  | .expectFunction shape => ([], { pending with function := shape })
  | .expectName name span => ([], { pending with name := some (name, span) })
  | .expectAccess access => ([], { pending with access := access })
  | .openFunction isArrow =>
    ([.openScope (.function isArrow pending.name pending.function)],
      { pending with function := none, name := none })
  | .reference name span =>
    ([.reference name span pending.access], { pending with access := .read })
  | .member chain span =>
    (chain.toList.map fun chain => .member chain span pending.access,
      { pending with access := .read })

end Pending

/-- A survey with what is pending. -/
structure Builder where
  survey : Survey
  pending : Pending

namespace Builder

def start : Builder :=
  ⟨.start, .nothing⟩

def hear (builder : Builder) (signal : Signal) : Builder :=
  let (steps, pending) := builder.pending.hear signal
  ⟨steps.foldl Survey.step builder.survey, pending⟩

end Builder

namespace ScopeTable

def ofProgram (root : Node) : ScopeTable :=
  (root.signals.foldl Builder.hear Builder.start).survey.table

/-! ## Questions -/

/-- A scope and the scopes around it, up to a number of them. -/
def climb (table : ScopeTable) : (fuel : Nat) → ScopeId → List ScopeId
  | 0, _ => []
  | fuel + 1, id =>
    match table.get? id with
    | none => []
    | some scope =>
      match scope.parent with
      | none => [id]
      | some parent => id :: climb table fuel parent

/-- A scope and the scopes around it, innermost first. -/
def ancestors (table : ScopeTable) (id : ScopeId) : List ScopeId :=
  table.climb table.scopes.length id

/-- Whether a scope is another one or lies in it. -/
def isWithin (table : ScopeTable) (id ancestor : ScopeId) : Bool :=
  (table.ancestors id).contains ancestor

def sitesIn (table : ScopeTable) (id : ScopeId) (name : String) : List Site :=
  match table.get? id with
  | some scope => scope.sites name
  | none => []

/-- A scope that declares a name, with the places that do. -/
structure Resolution where
  scope : ScopeId
  sites : List Site
  deriving DecidableEq, Repr

namespace Resolution

/-- Whether only one place declares the name. -/
def isUnique (resolution : Resolution) : Bool :=
  resolution.sites.length == 1

end Resolution

/-- The nearest scope, from one outwards, that declares a name. -/
def resolve (table : ScopeTable) (id : ScopeId) (name : String) :
    Option Resolution :=
  (table.ancestors id).findSome? fun ancestor =>
    let sites := table.sitesIn ancestor name
    if sites.isEmpty then none else some ⟨ancestor, sites⟩

def isDefined (table : ScopeTable) (id : ScopeId) (name : String) : Bool :=
  (table.resolve id name).isSome

/-- The scope whose `this` a scope sees. -/
def thisScope (table : ScopeTable) (id : ScopeId) : ScopeId :=
  ((table.ancestors id).find? fun ancestor =>
    (table.get? ancestor).any fun scope => scope.kind.bindsThis).getD root

/-- The innermost scope found around an offset. -/
def scopeAt (table : ScopeTable) (offset : Nat) : ScopeId :=
  table.scopes.foldl (fun current scope =>
    if scope.span.holds offset &&
        scope.parent.any (fun parent => table.isWithin parent current)
    then scope.id else current) root

/-- The places within a scope that declare a name, with their scopes. -/
def declarationsWithin (table : ScopeTable) (id : ScopeId) (name : String) :
    List (ScopeId × Site) :=
  (table.scopes.filter fun scope => table.isWithin scope.id id).flatMap
    fun scope => (scope.sites name).map fun site => (scope.id, site)

/-- Whether a name that a scope declares is assigned to anywhere. -/
def isMutated (table : ScopeTable) (id : ScopeId) (name : String) : Bool :=
  table.references.any fun reference =>
    reference.access == .write && reference.name == name &&
      (table.resolve reference.scope name).any fun resolution =>
        resolution.scope == id

/-- The uses of names that nothing declares. -/
def unresolvedReferences (table : ScopeTable) : List Reference :=
  table.references.filter fun reference =>
    !table.isDefined reference.scope reference.name

def function? (table : ScopeTable) (id : ScopeId) : Option FunctionRecord :=
  (table.functionByScope.lookup id).bind fun index => table.functions[index]?

/-- The innermost function around a scope, its own included. -/
def enclosingFunction? (table : ScopeTable) (id : ScopeId) :
    Option FunctionRecord :=
  (table.ancestors id).findSome? table.function?

end ScopeTable

end Codemod
