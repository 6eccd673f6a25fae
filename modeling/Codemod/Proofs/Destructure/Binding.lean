import Codemod.Pipeline
import Codemod.Proofs.Destructure.Verdicts

/-!
# New bindings

The planner binds new names in one of three places: in a pattern without
properties, behind the last property of a pattern, or in a declaration of their
own.  What separates the new text from its surroundings are blanks and line
breaks.  A line break in front of a declaration is not certain: a call of the
parent constructor gets one behind it only if the call starts its line, and a
call without a semicolon then runs into the declaration
(`unfinished_call_runs_into_declaration`).
-/

namespace Codemod

/-- Whether a character only separates tokens. -/
def Lexer.isSpace (char : Char) : Bool :=
  isLineBreak char || isBlank char

namespace Destructure

open Codemod.Lexer

/-! ## Gaps between statements -/

theorem isSpace_of_isIndent {char : Char} (isIndent : Text.isIndent char = true) :
    isSpace char = true := by
  simp only [Text.isIndent, Bool.or_eq_true, beq_iff_eq] at isIndent
  rcases isIndent with rfl | rfl <;> decide

theorem lineIndent_all (source : List Char) (offset : Nat) :
    (Text.lineIndent source offset).all Text.isIndent = true := List.all_takeWhile

theorem newLine_all (source : List Char) (offset : Nat) :
    ('\n' :: Text.lineIndent source offset).all isSpace = true := by
  rw [List.all_cons, Bool.and_eq_true]
  refine ⟨by decide, List.all_eq_true.mpr ?_⟩
  intro char member
  exact isSpace_of_isIndent (List.all_eq_true.mp (lineIndent_all source offset) char member)

/-- A gap between statements separates tokens. -/
theorem statementGap_all (source : List Char) (offset : Nat) :
    (statementGap source offset).all isSpace = true := by
  rw [statementGap]
  split
  · exact newLine_all source offset
  · decide

/-! ## New declarations -/

variable {setting : Setting} {function : FunctionRecord} {names : List String}

/-- The names that the planner declares in a function. -/
def newNames (setting : Setting) (function : FunctionRecord) : List String :=
  injectedNames (judgements setting (candidates setting) function)

/-- The text of a declaration of names. -/
def declarationText (setting : Setting) (names : List String) : List Char :=
  "const ".toList ++ setting.style.braced (names.map String.toList) ++ " = ".toList ++
    setting.props.text.toList ++ [';']

theorem declarationEdit?_eq (setting : Setting) (function : FunctionRecord) (names : List String) :
    declarationEdit? setting function names =
      match function.superStatement with
      | some call => some (.insert call.stop
          (statementGap setting.source call.start ++ declarationText setting names))
      | none => function.firstStatement.map fun start =>
        .insert start (declarationText setting names ++ statementGap setting.source start) :=
  rfl

/-- A constructor that calls the parent's without a semicolon and reads a property. -/
def unfinishedCall : List Char :=
  "class A extends B { constructor() { super()
    this.x = this.props.y; } }".toList

/--
The call of the sample does not start its line, so the declaration follows it on the
same line: the result cannot be read again.
-/
theorem unfinished_call_runs_into_declaration :
    ∃ output, Transform.propsToDestructuring.run .plain .standard unfinishedCall =
        some output ∧
      output.text = "class A extends B { constructor() { super() const { y } = this.props;
    this.x = y; } }".toList ∧
      parseProgram .plain output.text = none := by
  obtain ⟨output, isOutput, isText, unread⟩ :
      ∃ output ∈ Transform.propsToDestructuring.run .plain .standard unfinishedCall,
        output.text = "class A extends B { constructor() { super() const { y } = this.props;
    this.x = y; } }".toList ∧
        (parseProgram .plain output.text).isNone = true := by
    decide +kernel
  exact ⟨output, isOutput, isText, Option.isNone_iff_eq_none.1 unread⟩

/-! ## Names in patterns -/

/-- What separates new names in a pattern, after the comma. -/
def mergeGap (setting : Setting) (target : Destructuring) (stop : Nat) : List Char :=
  if Text.isMultiline setting.source target.pattern.start target.pattern.stop then
    '\n' :: Text.lineIndent setting.source stop
  else [' ']

/-- Whether a comma follows the new names of a pattern. -/
def addsComma (setting : Setting) (target : Destructuring) (stop : Nat) : Bool :=
  Text.isMultiline setting.source target.pattern.start target.pattern.stop &&
    setting.style.trailingComma &&
    !(Text.slice setting.source stop target.pattern.stop).contains ','

theorem text_mergeEdit {target : Destructuring} {stop : Nat} (names : List String)
    (isLast : target.lastEnd = some stop) :
    (mergeEdit setting target names).text =
      (names.map String.toList).flatMap ((',' :: mergeGap setting target stop) ++ ·) ++
        (if addsComma setting target stop then [','] else []) := by
  rw [mergeEdit, isLast]
  cases isMultiline : Text.isMultiline setting.source target.pattern.start target.pattern.stop <;>
    simp [Edit.insert, mergeGap, addsComma, isMultiline]

theorem mergeGap_all (setting : Setting) (target : Destructuring) (stop : Nat) :
    (mergeGap setting target stop).all isSpace = true := by
  rw [mergeGap]
  split
  · exact newLine_all setting.source stop
  · decide

theorem bindingEdit?_eq_some_iff {edit : Edit} : bindingEdit? setting function names = some edit ↔
      names ≠ [] ∧ match mergeTarget? setting function with
        | some target => mergeEdit setting target names = edit
        | none => declarationEdit? setting function names = some edit := by
  rw [bindingEdit?]
  cases names with
  | nil => simp
  | cons name names =>
    cases mergeTarget? setting function <;> simp

end Destructure

end Codemod
