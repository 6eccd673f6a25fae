import Codemod.Proofs.Destructure.Binding
import Codemod.Proofs.Scope.Records

/-!
# One edit binds the new names

Whatever the verdicts on the accesses of a function ask for, the function gets
one edit that binds it, or none if nothing is asked for.  `BindsNames` says what
the edit looks like, by the statements at the top of the body that take the
properties apart: without any, it is a declaration of its own; otherwise it
extends the first of them that does not take all the rest.

That the edit is never lost rests on the check that each access passed on its
own: a name is asked for only where there is a pattern to extend or a first
statement to stand before.
-/

namespace Codemod

/-- The body of a recorded function in braces, which the record describes. -/
theorem ScopeTable.IsRecord.exists_body {table : ScopeTable} {function : FunctionRecord}
    {node : Node} (record : table.IsRecord function node)
    (inBraces : function.hasExpressionBody = false) :
    ∃ body, node.body? = some body ∧ body.kind = .functionBody ∧
      function.toFunctionShape = Node.blockShape node.span function.isArrow body := by
  obtain ⟨body, isBody, isShape⟩ := Option.map_eq_some_iff.1 record.shape
  have inFunction {children : List Node} (found : Node.functionBody? children = some body) :
      body.kind = .functionBody := by
    have isKind := List.find?_some found
    exact beq_iff_eq.1 isKind
  refine ⟨body, isBody, ?_⟩
  rw [← isShape] at inBraces ⊢
  unfold Node.body? at isBody
  split at isBody
  · exact ⟨inFunction isBody, rfl⟩
  · cases inBraces
  · exact ⟨inFunction isBody, rfl⟩
  · cases isBody

namespace Destructure

open ScopeTable

variable {setting : Setting} {function : FunctionRecord} {names : List String}

/-- The first of some patterns that does not take all the rest. -/
def IsFirstOpen (patterns : List Destructuring) (target : Destructuring) : Prop :=
  ∃ before behind, patterns = before ++ target :: behind ∧
    (∀ other ∈ before, other.hasRest = true) ∧ target.hasRest = false

/-- Names between braces. -/
def namesInBraces (style : Style) (names : List String) : List Char :=
  let padding := if style.objectCurlySpacing then [' '] else []
  '{' :: padding ++ [',', ' '].intercalate (names.map String.toList) ++ padding ++ ['}']

theorem braced_eq (style : Style) (pending : names ≠ []) :
    style.braced (names.map String.toList) = namesInBraces style names := by
  have isSome : (names.map String.toList).isEmpty = false := by simpa using pending
  rw [Style.braced, isSome, namesInBraces, Style.commaSeparated]
  cases style.objectCurlySpacing <;> simp

theorem text_props (setting : Setting) :
    setting.props.text.toList = setting.self.text.toList ++ ".props".toList := by
  have text_eq : setting.props.text = setting.self.text ++ "." ++ "props" := by
    rw [Setting.props]
    cases setting.self <;> rfl
  rw [text_eq, String.toList_append, String.toList_append, List.append_assoc]
  rfl

/--
An edit that binds names where `patterns` are the statements that take the
properties apart.
-/
inductive BindsNames (setting : Setting) (patterns : List Destructuring)
    (names : List String) : Edit → Prop
  /-- A declaration of its own. -/
  | declared {offset : Nat} {before behind : List Char} (untaken : patterns = [])
      (isGapBefore : before.all Lexer.isSpace = true)
      (isGapBehind : behind.all Lexer.isSpace = true) :
      BindsNames setting patterns names
        (.insert offset (before ++ "const ".toList ++ namesInBraces setting.style names ++
          " = ".toList ++ setting.self.text.toList ++ ".props".toList ++ [';'] ++ behind))
  /-- All there is in a pattern that had no properties. -/
  | filled {target : Destructuring} (first : IsFirstOpen patterns target)
      (fresh : ∀ name ∈ names, target.hasKey name = false)
      (isEmpty : target.lastEnd = none) :
      BindsNames setting patterns names
        (.replace target.pattern (namesInBraces setting.style names))
  /-- More properties behind the last one of a pattern. -/
  | extended {target : Destructuring} {stop : Nat} {gap ending : List Char}
      (first : IsFirstOpen patterns target)
      (fresh : ∀ name ∈ names, target.hasKey name = false)
      (isLast : target.lastEnd = some stop) (isGap : gap.all Lexer.isSpace = true)
      (ends : ending = [] ∨ ending = [',']) :
      BindsNames setting patterns names
        (.insert stop
          ((names.map String.toList).flatMap ((',' :: gap) ++ ·) ++ ending))

theorem mergeTarget?_eq_some_iff {target : Destructuring} :
    mergeTarget? setting function = some target ↔
      IsFirstOpen (propsPatterns setting function) target := by
  rw [mergeTarget?, List.find?_eq_some_iff_append, IsFirstOpen]
  simp only [Bool.not_eq_true', Bool.not_not]
  constructor
  · rintro ⟨isOpen, before, behind, split, taken⟩
    exact ⟨before, behind, split, taken, isOpen⟩
  · rintro ⟨before, behind, split, taken, isOpen⟩
    exact ⟨isOpen, before, behind, split, taken⟩

theorem bindsNames_mergeEdit {target : Destructuring} (pending : names ≠ [])
    (found : mergeTarget? setting function = some target)
    (fresh : ∀ name ∈ names, target.hasKey name = false) :
    BindsNames setting (propsPatterns setting function) names (mergeEdit setting target names) := by
  have first := mergeTarget?_eq_some_iff.1 found
  cases isLast : target.lastEnd with
  | none =>
    have isEdit : mergeEdit setting target names =
        .replace target.pattern (namesInBraces setting.style names) := by
      rw [mergeEdit, isLast, braced_eq setting.style pending]
    rw [isEdit]
    exact .filled first fresh isLast
  | some stop =>
    have isEdit : mergeEdit setting target names =
        .insert stop (mergeEdit setting target names).text := by
      rw [mergeEdit, isLast]
      rfl
    rw [isEdit, text_mergeEdit names isLast]
    refine .extended first fresh isLast (mergeGap_all setting target stop) ?_
    split
    · exact Or.inr rfl
    · exact Or.inl rfl

theorem bindsNames_declaration (pending : names ≠ []) {patterns : List Destructuring}
    (untaken : patterns = []) {offset : Nat} {before behind : List Char}
    (isGapBefore : before.all Lexer.isSpace = true)
    (isGapBehind : behind.all Lexer.isSpace = true) :
    BindsNames setting patterns names
      (.insert offset (before ++ declarationText setting names ++ behind)) := by
  have text_eq : before ++ declarationText setting names ++ behind =
      before ++ "const ".toList ++ namesInBraces setting.style names ++ " = ".toList ++
        setting.self.text.toList ++ ".props".toList ++ [';'] ++ behind := by
    unfold declarationText
    rw [braced_eq setting.style pending, text_props setting]
    simp only [List.append_assoc]
  rw [text_eq]
  exact .declared untaken isGapBefore isGapBehind

theorem exists_bindsNames_declarationEdit? (pending : names ≠ [])
    (untaken : propsPatterns setting function = [])
    (hasStatement : function.firstStatement.isSome = true) :
    ∃ edit, declarationEdit? setting function names = some edit ∧
      BindsNames setting (propsPatterns setting function) names edit := by
  rw [declarationEdit?_eq]
  cases function.superStatement with
  | some call =>
    refine ⟨_, rfl, ?_⟩
    rw [← List.append_nil (_ ++ declarationText setting names)]
    exact bindsNames_declaration pending untaken (statementGap_all setting.source call.start) rfl
  | none =>
    obtain ⟨start, isStart⟩ := Option.isSome_iff_exists.1 hasStatement
    rw [isStart]
    refine ⟨_, rfl, ?_⟩
    rw [← List.nil_append (declarationText setting names)]
    exact bindsNames_declaration pending untaken rfl (statementGap_all setting.source start)

/-! ## What the verdicts guarantee -/

theorem mem_newNames_iff (member : function ∈ setting.table.functions) {name : String} :
    name ∈ newNames setting function ↔ ∃ judgement, Judged setting function judgement ∧
        judgement.verdict = .injected ∧ judgement.name = name := by
  simp only [newNames, injectedNames, Text.mem_nameSet, List.mem_map, List.mem_filter, beq_iff_eq]
  constructor
  · rintro ⟨judgement, ⟨judged, injected⟩, isName⟩
    exact ⟨judgement, ⟨member, judged⟩, injected, isName⟩
  · rintro ⟨judgement, judged, injected, isName⟩
    exact ⟨judgement, ⟨judged.judged, injected⟩, isName⟩

/-- A name is asked for only if its function has a place to bind it. -/
theorem Judged.unblocked_of_injected (wellFormed : setting.table.WellFormed)
    {judgement : Judgement} (judged : Judged setting function judgement)
    (injected : judgement.verdict = .injected) :
    injectionBlocker? setting function judgement.access judgement.name = none := by
  obtain ⟨_, _, _, isVerdict⟩ := judged.candidate wellFormed
  rw [isVerdict] at injected
  exact (verdict_eq_injected_iff.1 injected).2.2.2.2

/-- New names are bound by an edit. -/
theorem exists_bindingEdit? (wellFormed : setting.table.WellFormed)
    (member : function ∈ setting.table.functions)
    (pending : newNames setting function ≠ []) :
    ∃ edit, bindingEdit? setting function (newNames setting function) = some edit ∧
      BindsNames setting (propsPatterns setting function) (newNames setting function) edit := by
  have unblocked : ∀ name ∈ newNames setting function, ∃ access,
      injectionBlocker? setting function access name = none := by
    intro name isNew
    obtain ⟨judgement, judged, injected, rfl⟩ := (mem_newNames_iff member).1 isNew
    exact ⟨judgement.access, judged.unblocked_of_injected wellFormed injected⟩
  cases found : mergeTarget? setting function with
  | some target =>
    refine ⟨_, bindingEdit?_eq_some_iff.2 ⟨pending, by rw [found]⟩, ?_⟩
    apply bindsNames_mergeEdit pending found
    intro name isNew
    obtain ⟨access, passes⟩ := unblocked name isNew
    have free := (injectionBlocker?_eq_none_iff.1 passes).2
    rw [found] at free
    exact free.1
  | none =>
    obtain ⟨name, isNew⟩ := List.exists_mem_of_ne_nil _ pending
    obtain ⟨access, passes⟩ := unblocked name isNew
    have free := (injectionBlocker?_eq_none_iff.1 passes).2
    rw [found] at free
    obtain ⟨edit, isEdit, binds⟩ := exists_bindsNames_declarationEdit? pending free.1 free.2
    exact ⟨edit, bindingEdit?_eq_some_iff.2 ⟨pending, by rw [found]; exact isEdit⟩, binds⟩

/-- The edits of a text are those of its functions, one after the other. -/
theorem edits_planAll (setting : Setting) :
    (planAll setting).edits = setting.table.functions.flatMap fun function =>
      (planFunction setting (candidates setting) function).edits := by
  simp [planAll, List.flatMap_map]

/-- What becomes of the accesses of a function that are not left as they are. -/
theorem mem_replacements_iff (member : function ∈ setting.table.functions) {edit : Edit} :
    edit ∈ replacements (judgements setting (candidates setting) function) ↔
      ∃ judgement, Judged setting function judgement ∧
        (∀ reason, judgement.verdict ≠ .left reason) ∧
        edit = .replace judgement.access.span judgement.name.toList := by
  have isReplaced_iff (verdict : Verdict) :
      verdict.isReplaced = true ↔ ∀ reason, verdict ≠ .left reason := by
    cases verdict <;> simp [Verdict.isReplaced]
  simp only [replacements, List.mem_map, List.mem_filter, isReplaced_iff]
  constructor
  · rintro ⟨judgement, ⟨judged, replaced⟩, rfl⟩
    exact ⟨judgement, ⟨member, judged⟩, replaced, rfl⟩
  · rintro ⟨judgement, judged, replaced, rfl⟩
    exact ⟨judgement, ⟨judged.judged, replaced⟩, rfl⟩

/-- The statements at the top of a body that take the properties apart. -/
def topPatterns (setting : Setting) (body : Node) : List Destructuring :=
  (Node.destructurings body.bodyStatements).filter fun destructuring =>
    destructuring.value == some setting.props

/-- The body of a function in braces, as the tree has it. -/
structure IsBodyOf (program : Program) (function : FunctionRecord) (body : Node) :
    Prop where
  node : ∃ node, Lists program.root function node ∧ node.body? = some body
  kind : body.kind = .functionBody
  shape : ∃ span, function.toFunctionShape = Node.blockShape span function.isArrow body

variable {program : Program} {options : TransformOptions} {body : Node}

theorem Judged.exists_body (isText : program.root.kind = .program) {judgement : Judgement}
    (judged : Judged (.ofProgram program options) function judgement) :
    ∃ body, IsBodyOf program function body := by
  obtain ⟨_, _, owner, _⟩ := judged.candidate (wellFormed_ofProgram program options)
  obtain ⟨node, lists, record⟩ := exists_isRecord isText judged.member
  obtain ⟨body, isBody, isKind, isShape⟩ := record.exists_body owner.inBraces
  exact ⟨body, ⟨node, lists, isBody⟩, isKind, node.span, isShape⟩

theorem IsBodyOf.propsPatterns_eq (isBody : IsBodyOf program function body) (setting : Setting) :
    propsPatterns setting function = topPatterns setting body := by
  obtain ⟨span, isShape⟩ := isBody.shape
  rw [propsPatterns, isShape]
  rfl

/--
The edits of a function replace its accesses, each by the name of its property, if
the verdict does not leave it; and one edit binds the names that verdicts ask for,
or no such edit if they ask for none.  The names stand in it once each, in the order
of their bytes.
-/
theorem one_edit_binds_new_names (program : Program) (options : TransformOptions)
    (isText : program.root.kind = .program) {function : FunctionRecord}
    (member : function ∈ (ScopeTable.ofProgram program.root).functions) :
    let setting := Setting.ofProgram program options
    let own := judgements setting (candidates setting) function
    let names := injectedNames own
    (Transform.propsToDestructuring.plan program options).edits =
      (setting.table.functions.flatMap fun function =>
        (planFunction setting (candidates setting) function).edits) ∧
    (∀ name, name ∈ names ↔ ∃ judgement, Judged setting function judgement ∧
      judgement.verdict = .injected ∧ judgement.name = name) ∧
    (names.Pairwise fun first second =>
      first.toUTF8.data.toList < second.toUTF8.data.toList) ∧
    ∃ replaced binding : List Edit,
      (planFunction setting (candidates setting) function).edits = replaced ++ binding ∧
      replaced = ((own.filter fun judgement => judgement.verdict.isReplaced).map
        fun judgement => .replace judgement.access.span judgement.name.toList) ∧
      (∀ edit, edit ∈ replaced ↔ ∃ judgement, Judged setting function judgement ∧
        (∀ reason, judgement.verdict ≠ .left reason) ∧
        edit = .replace judgement.access.span judgement.name.toList) ∧
      (names = [] → binding = []) ∧
      (names ≠ [] → ∃ edit node body, binding = [edit] ∧
        Lists program.root function node ∧ node.body? = some body ∧
        BindsNames setting (topPatterns setting body) names edit) := by
  intro setting own names
  have wellFormed := wellFormed_ofProgram program options
  refine ⟨edits_planAll setting, fun name => mem_newNames_iff member, ?_, ?_⟩
  · exact (Text.increasing_nameSet _).imp Text.toUTF8_lt_of_lt
  · refine ⟨replacements own, (bindingEdit? setting function names).toList, rfl, rfl,
      fun edit => mem_replacements_iff member, ?_, ?_⟩
    · intro none_
      rw [none_]
      rfl
    · intro pending
      obtain ⟨edit, isEdit, binds⟩ := exists_bindingEdit? wellFormed member pending
      obtain ⟨name, isNew⟩ := List.exists_mem_of_ne_nil _ pending
      obtain ⟨judgement, judged, _⟩ := (mem_newNames_iff member).1 isNew
      obtain ⟨body, isBodyOf⟩ := judged.exists_body isText
      obtain ⟨node, lists, isBody⟩ := isBodyOf.node
      rw [isBodyOf.propsPatterns_eq] at binds
      refine ⟨edit, node, body, ?_, lists, isBody, binds⟩
      rw [show bindingEdit? setting function names = some edit from isEdit]
      rfl

/-- Two reads of new names behind a pattern that takes a third one. -/
def pairedReads : Option Program :=
  parseProgram .plain
    "function f() { const { a } = this.props; return this.props.z + this.props.b + a; }".toList

/-- The two names are added to the pattern of the sample, in order. -/
theorem one_edit_binds_new_names_in_pairedReads :
    ∃ program, pairedReads = some program ∧
      ∃ function ∈ (ofProgram program.root).functions, ∃ edit body,
      newNames (.ofProgram program .standard) function = ["b", "z"] ∧
      (planFunction (.ofProgram program .standard)
        (candidates (.ofProgram program .standard)) function).edits =
        [.replace ⟨63, 75⟩ ['b'], .replace ⟨48, 60⟩ ['z'], edit] ∧
      BindsNames (.ofProgram program .standard)
        (topPatterns (.ofProgram program .standard) body) ["b", "z"] edit := by
  obtain ⟨program, parsed, isText, function, member, areNames, areReplaced⟩ :
      ∃ program ∈ pairedReads, program.root.kind = .program ∧
        ∃ function ∈ (ofProgram program.root).functions,
          newNames (.ofProgram program .standard) function = ["b", "z"] ∧
          ((judgements (.ofProgram program .standard) (candidates (.ofProgram program .standard))
            function).filter fun judgement => judgement.verdict.isReplaced).map
              (fun judgement => Edit.replace judgement.access.span judgement.name.toList) =
            [.replace ⟨63, 75⟩ ['b'], .replace ⟨48, 60⟩ ['z']] := by
    decide +kernel
  have areInjected : injectedNames (judgements (.ofProgram program .standard)
      (candidates (.ofProgram program .standard)) function) = ["b", "z"] := areNames
  obtain ⟨_, _, _, replaced, binding, edits, isReplaced, _, _, bound⟩ :=
    one_edit_binds_new_names program .standard isText member
  rw [areInjected] at bound
  obtain ⟨edit, node, body, rfl, _, _, binds⟩ := bound (List.cons_ne_nil _ _)
  rw [isReplaced, areReplaced] at edits
  exact ⟨program, parsed, function, member, edit, body, areNames, edits, binds⟩

end Destructure

end Codemod
