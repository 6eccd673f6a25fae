import Codemod.Proofs.Scope.Hoisting
import Codemod.Proofs.Tree.Placement

/-!
# The variables of a function

`Node.Declares` reads off the tree which variables a node declares to what is
around it: those of the lists of variables in it that no function and no
static block encloses.  The table agrees: a variable whose holder is the scope
of a function is one that the body of the function declares.
-/

namespace Codemod

namespace Node

/-- A declarator of a list of variables declares a name at a site. -/
def IsDeclared (keyword : VariableKeyword) (declarator : Node) (name : String)
    (site : Site) : Prop :=
  ∃ span pattern rest, declarator = mk .declarator span (pattern :: rest) ∧
    ∃ entry ∈ pattern.patternNames, name = entry.name ∧
      site = ⟨entry.span, .variableName keyword, entry.place,
        some ⟨span, declarator.declaratorValue?.bind chain?⟩⟩

/-- A node declares a variable to the function or static block around it. -/
inductive Declares : Node → String → Site → Prop
  | here {keyword : VariableKeyword} {span : Span} {declarators : List Node}
      {declarator : Node} {name : String} {site : Site}
      (member : declarator ∈ declarators)
      (declared : IsDeclared keyword declarator name site) :
      Declares (mk (.variableList keyword) span declarators) name site
  | inside {kind : Kind} {span : Span} {children : List Node} {child : Node}
      {name : String} {site : Site} (isOpen : kind.isClosed = false)
      (member : child ∈ children) (declared : Declares child name site) :
      Declares (mk kind span children) name site

/-- Only statements declare variables. -/
theorem Declares.mayDeclare {node : Node} {name : String} {site : Site}
    (declared : node.Declares name site) (placed : node.isWellPlaced = true) :
    node.kind.mayDeclare = true := by
  induction declared with
  | here => rfl
  | inside isOpen member _ ih =>
    obtain ⟨parts, each⟩ := isWellPlaced_mk.1 placed
    exact mayDeclare_of_arePartsPlaced parts isOpen member (ih (each _ member))

/-- The part of a function that declares variables is its body. -/
theorem functionBody?_of_hasOneBody {children : List Node} {child : Node}
    (single : hasOneBody (declaring children) = true)
    (member : child ∈ children) (declares : child.kind.mayDeclare = true) :
    child.kind = .functionBody ∧ functionBody? children = some child := by
  have childMember := mem_declaring.2 ⟨member, declares⟩
  unfold hasOneBody at single
  split at single
  · next none_ => simp [none_] at childMember
  · next only one =>
    rw [one, List.mem_singleton] at childMember
    have isBody : child.kind = .functionBody := by
      rw [childMember]
      simpa using single
    refine ⟨isBody, ?_⟩
    obtain ⟨found, isFound⟩ : ∃ found, functionBody? children = some found := by
      refine Option.isSome_iff_exists.1 (List.find?_isSome.2 ⟨child, member, ?_⟩)
      simp [isBody]
    have foundKind : found.kind = .functionBody := by
      have own := List.find?_some isFound
      simpa using own
    have foundMember := mem_declaring.2
      ⟨List.mem_of_find?_eq_some isFound, by rw [foundKind]; rfl⟩
    rw [one, List.mem_singleton] at foundMember
    rw [isFound, foundMember, childMember]
  · cases single

end Node

/-- The body of a function of this shape declares the variable. -/
def FunctionShape.Keeps (shape : FunctionShape) (name : String) (site : Site) :
    Prop :=
  ∃ body : Node, body.kind = .functionBody ∧ body.isWellPlaced = true ∧
    shape.destructurings = Node.destructurings body.bodyStatements ∧
    body.Declares name site

namespace Survey

open Trace

/-- Variables stop at static blocks and at functions, whose bodies declare them. -/
def Keeps : Opening → String → Site → Prop
  | .function _ _ (some shape), name, site => shape.Keeps name site
  | .staticBlock, _, _ => True
  | _, _, _ => False

/-- Some node among the parts declares the variable. -/
abbrev SomeDeclares (children : List Node) (name : String) (site : Site) : Prop :=
  ∃ child ∈ children, child.Declares name site

variable {span : Span} {children : List Node}

/-- The parts of a node let out what one of them declares. -/
theorem runs_parts (each : ∀ child ∈ children, ∀ access,
      Runs Keeps child.Declares (child.trace access)) :
    ∀ part ∈ Node.parts children, ∀ access, Runs Keeps (SomeDeclares children) (part.2 access) := by
  intro part member access
  obtain ⟨child, isChild, rfl⟩ := List.mem_map.1 member
  exact (each child isChild access).mono fun name site declared =>
    ⟨child, isChild, declared⟩

theorem runs_strung {enters : Span → Prop} {uses : Nat → Access} {number : Nat}
    {parts : List Part} {steps : List Step} (strung : Strung enters uses number parts steps)
    (runs : ∀ part ∈ parts, ∀ access, Runs Keeps (SomeDeclares children) (part.2 access)) :
    Runs Keeps (SomeDeclares children) steps :=
  Runs.woven (strung.woven : Woven (· = .block) _ _) (fun _ opened => opened) runs

theorem runs_declareVariables (keyword : VariableKeyword) :
    Runs Keeps (Node.mk (.variableList keyword) span children).Declares
      (declareVariables keyword children) := by
  refine .flatMap fun child isChild => ?_
  split
  · next declaratorSpan pattern rest =>
    rw [declarePattern, List.map_eq_flatMap]
    refine .flatMap fun entry isEntry => ?_
    refine .declare fun _ => .here isChild ?_
    exact ⟨declaratorSpan, pattern, rest, rfl, entry, isEntry, rfl, rfl⟩
  · exact .nil

variable {lets : String → Site → Prop}

/-- A function keeps what its parts declare, which is what its body declares. -/
theorem runs_inFunction {isArrow : Bool} {given : Option (String × Span)}
    {shape : Option FunctionShape} {steps : List Step}
    (each : ∀ child ∈ children, child.isWellPlaced = true)
    (bodied : ∀ child ∈ children, child.kind.mayDeclare = true →
      child.kind = .functionBody ∧ ∃ found, shape = some found ∧
        found.destructurings = Node.destructurings child.bodyStatements)
    (runs : Runs Keeps (SomeDeclares children) steps) :
    Runs Keeps lets (inScope (.function isArrow given shape) steps) := by
  refine runs.inScope ?_ ?_
  · intro passes
    cases isArrow <;> cases passes
  · intro _ name site declared
    obtain ⟨child, member, declares⟩ := declared
    obtain ⟨isBody, found, rfl, same⟩ :=
      bodied child member (declares.mayDeclare (each child member))
    exact ⟨child, isBody, each child member, same, declares⟩

/-- The part of a function or of an arrow that declares variables is its body. -/
theorem bodied_of_placed {kind : Kind} (isFunction : kind.isFunction = true)
    (placed : Node.arePartsPlaced kind span children = true) :
    ∀ child ∈ children, child.kind.mayDeclare = true →
      child.kind = .functionBody ∧ ∃ found, (Node.mk kind span children).shape? = some found ∧
        found.destructurings = Node.destructurings child.bodyStatements := by
  intro child member declares
  cases kind with
  | function form =>
    obtain ⟨isBody, found⟩ := Node.functionBody?_of_hasOneBody
      (Node.own_of_arePartsPlaced placed) member declares
    exact ⟨isBody, Node.blockShape span false child, by
      simp [Node.shape?, Node.body?, found], rfl⟩
  | arrow isAsync hasExpressionBody =>
    cases hasExpressionBody with
    | true =>
      rw [Node.mayDeclare_eq_false_of_isEmpty (Node.own_of_arePartsPlaced placed)
        member] at declares
      cases declares
    | false =>
      obtain ⟨isBody, found⟩ := Node.functionBody?_of_hasOneBody
        (Node.own_of_arePartsPlaced placed) member declares
      exact ⟨isBody, Node.blockShape span true child, by
        simp [Node.shape?, Node.body?, found], rfl⟩
  | _ => cases isFunction

/-- A function lets nothing out. -/
theorem runs_function {kind : Kind} (isFunction : kind.isFunction = true)
    (placed : Node.arePartsPlaced kind span children = true)
    (each : ∀ child ∈ children, child.isWellPlaced = true)
    (runs : ∀ part ∈ Node.parts children, ∀ access,
      Runs Keeps (SomeDeclares children) (part.2 access))
    (access : Access) :
    Runs Keeps lets ((Node.mk kind span children).trace access) := by
  have bodied := bodied_of_placed isFunction placed
  have isForm : kind.scopeForm? = some .whole := by
    cases kind <;> first | rfl | cases isFunction
  have notList : ∀ keyword, kind ≠ .variableList keyword := by
    rintro keyword rfl
    cases isFunction
  obtain ⟨opening, inside, layout⟩ := Node.exists_layout isForm span children access
  obtain ⟨isArrow, given, rfl⟩ : ∃ isArrow given,
      opening = .function isArrow given (Node.mk kind span children).shape? := by
    have isOpening := layout.isOpening
    cases kind with
    | function form => exact ⟨_, _, (Option.some.inj isOpening).symm⟩
    | arrow isAsync hasExpressionBody => exact ⟨_, _, (Option.some.inj isOpening).symm⟩
    | _ => cases isFunction
  obtain ⟨trace, strung⟩ := layout.whole
  rw [trace]
  exact .append (.arrival (.mk kind span children) notList access)
    (runs_inFunction each bodied (runs_strung strung runs))

/-- A static block lets nothing out. -/
theorem runs_staticBlock (runs : ∀ part ∈ Node.parts children, ∀ access,
      Runs Keeps (SomeDeclares children) (part.2 access))
    (access : Access) : Runs Keeps lets ((Node.mk .staticBlock span children).trace access) := by
  obtain ⟨_, inside, layout⟩ := Node.exists_layout
    (show Kind.staticBlock.scopeForm? = some .whole from rfl) span children access
  obtain rfl := Option.some.inj layout.isOpening
  obtain ⟨trace, strung⟩ := layout.whole
  rw [trace]
  exact .append (.arrival _ (by simp) access)
    ((runs_strung strung runs).inScope nofun fun _ _ _ _ => trivial)

/-- Only texts, functions and static blocks open scopes other than blocks. -/
theorem eq_block_of_opening? {node : Node} {opening : Opening} (notText : node.kind ≠ .program)
    (isOpen : node.kind.isClosed = false) (isOpening : node.opening? = some opening) :
    opening = .block := by
  unfold Node.opening? at isOpening
  split at isOpening
  · exact absurd rfl notText
  · cases isOpen
  · cases isOpen
  · cases isOpen
  · next kind _ _ _ _ _ _ =>
    cases isForm : kind.scopeForm? <;> simp [isForm] at isOpening
    exact isOpening.symm

/-- A node lets out the variables that it declares, and its functions keep theirs. -/
theorem runs_trace (node : Node) (placed : node.isWellPlaced = true)
    (notText : node.kind ≠ .program) (access : Access) :
    Runs Keeps node.Declares (node.trace access) := by
  induction node using Node.induction generalizing access with
  | step kind span children ih =>
    obtain ⟨placedParts, each⟩ := Node.isWellPlaced_mk.1 placed
    have parts := runs_parts fun child member access =>
      ih child member (each child member)
        (Node.notProgram_of_arePartsPlaced placedParts member) access
    cases isClosed : kind.isClosed with
    | true =>
      unfold Kind.isClosed at isClosed
      split at isClosed
      · exact runs_function rfl placedParts each parts access
      · exact runs_function rfl placedParts each parts access
      · exact runs_staticBlock parts access
      · cases isClosed
    | false =>
      have upward : ∀ name site, SomeDeclares children name site →
          (Node.mk kind span children).Declares name site := by
        intro name site declared
        obtain ⟨child, member, declares⟩ := declared
        exact .inside isClosed member declares
      rcases kind.reference_cases with ⟨name, rfl⟩ | notReference
      · exact .arrival (.mk (.reference name) span children) (by simp) access
      obtain ⟨rest, trace, woven⟩ := Node.exists_woven notReference span children access
      have inside := Runs.woven woven
        (fun opening => eq_block_of_opening? notText isClosed) parts
      rw [trace]
      refine .append ?_ (inside.mono upward)
      by_cases isList : ∃ keyword, kind = .variableList keyword
      · obtain ⟨keyword, rfl⟩ := isList
        exact (runs_declareVariables keyword).append (.enter span)
      · exact .arrival (.mk kind span children) (not_exists.1 isList) access

end Survey

namespace ScopeTable

/-- A variable belongs to the whole text, to a static block, or to a function
whose body declares it. -/
theorem holder_of_hasVariable {program : Node} (isText : program.kind = .program)
    (placed : program.isWellPlaced = true) {id : ScopeId} {name : String}
    {site : Site} (declared : (ofProgram program).HasVariable id name site) :
    ∃ holder scope, (ofProgram program).holder? id = some holder ∧
      (ofProgram program).get? holder = some scope ∧
      (scope.kind = .text ∧ holder = root ∨ scope.kind = .staticBlock ∨
        ∃ function ∈ (ofProgram program).functions, function.scope = holder ∧
          function.Keeps name site) := by
  obtain ⟨kind, span, children⟩ := program
  cases isText
  obtain ⟨parts, each⟩ := Node.isWellPlaced_mk.1 placed
  have runs := Survey.Runs.readAll (Survey.runs_parts fun child member =>
    Survey.runs_trace child (each child member) (Node.notProgram_of_arePartsPlaced parts member))
  -- The text's own scope opens on an empty survey and is ready for its parts.
  let opened := ({ Survey.start with entered := span } : Survey).openScope .text
  have ready : opened.Ready := {
    sound := Survey.Sound.openScope (Survey.sound_start.step (.enter span)) .text
    isHeld := by rfl
    notEmpty := by simp [opened, Survey.openScope_stack] }
  have effect := runs opened ready
  have table : ofProgram (.mk .program span children) =
      ((Trace.readAll (Node.parts children)).foldl Survey.step opened).table := by
    rw [ofProgram_eq, Node.trace_program]
    simp [ofSteps, Trace.inScope, Survey.step, opened]
  rw [table] at declared ⊢
  rcases effect.declared declared with
    isOld | ⟨held, _⟩ | ⟨holder, opening, held, isOpened, kept⟩
  · have impossible := Survey.hasVariable_openScope isOld
    exact absurd impossible.lt_length (Nat.not_lt_zero _)
  · obtain ⟨scope, found, _, sameKind⟩ := effect.extends_ root
      (Survey.openedScope { Survey.start with entered := span } .text) rfl
    exact ⟨root, scope, held, found, Or.inl ⟨sameKind, rfl⟩⟩
  · obtain ⟨scope, found, isKind⟩ := isOpened.kind
    refine ⟨holder, scope, held, found, Or.inr ?_⟩
    cases opening with
    | text => cases kept
    | block => cases kept
    | staticBlock => exact Or.inl isKind
    | function isArrow given shape =>
      cases shape with
      | none => cases kept
      | some shape => exact Or.inr ⟨_, isOpened.record shape rfl, rfl, kept⟩

end ScopeTable

end Codemod
