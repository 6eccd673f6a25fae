import Codemod.Proofs.Destructure.Binding
import Codemod.Proofs.Scope.Binders
import Codemod.Proofs.Text.Lines

/-!
# Names that are added to a pattern

Where a pattern is laid out as a brace, properties with a comma between each two
of them, perhaps one more comma, and a brace, with white space and comments
anywhere between, names that are added to it become its last properties, and it
is laid out in the same way.  The planner looks for the last comma in the text
behind the last property, and that may have comments.  So a comma in a comment
there keeps it from adding one (`comma_in_comment_is_taken_for_the_last`).
-/

namespace Codemod.Destructure

open Lexer Text

/-! ## Layout -/

/-- What may stand between the parts of a pattern: white space and comments. -/
inductive IsGap : List Char → Prop
  | nothing : IsGap []
  | space {char : Char} {rest : List Char} (blank : isSpace char = true) (more : IsGap rest) :
      IsGap (char :: rest)
  | lineComment {comment rest : List Char} {char : Char}
      (within : comment.all (fun char => !isLineBreak char) = true)
      (ends : isLineBreak char = true) (more : IsGap rest) :
      IsGap ('/' :: '/' :: (comment ++ char :: rest))
  | blockComment {comment rest : List Char} (within : ¬ ['*', '/'] <:+: comment)
      (more : IsGap rest) : IsGap ('/' :: '*' :: (comment ++ '*' :: '/' :: rest))

/-- A text with the span that it has behind another one. -/
def placed (front text : List Char) : List Char × Span :=
  (text, ⟨byteLength front, byteLength (front ++ text)⟩)

/-- A pattern, with a text before it, up to the end of its last property. -/
inductive UpTo (front : List Char) : List (List Char × Span) → List Char → Prop
  | first {gap : List Char} (isGap : IsGap gap) (property : List Char) :
      UpTo front [placed (front ++ '{' :: gap) property] ('{' :: gap ++ property)
  | next {properties : List (List Char × Span)} {text before after : List Char}
      (earlier : UpTo front properties text) (isBefore : IsGap before) (isAfter : IsGap after)
      (property : List Char) :
      UpTo front (properties ++ [placed (front ++ (text ++ before ++ ',' :: after)) property])
        (text ++ before ++ ',' :: after ++ property)

/-- What closes a pattern behind its last property, with or without a comma. -/
inductive Closing : Bool → List Char → Prop
  | plain {gap : List Char} (isGap : IsGap gap) : Closing false (gap ++ ['}'])
  | comma {before after : List Char} (isBefore : IsGap before) (isAfter : IsGap after) :
      Closing true (before ++ ',' :: after ++ ['}'])

/--
A pattern, with a text before it: its properties, whether a comma stands behind
them, what closes it, and its text.
-/
inductive LaidOut (front : List Char) :
    List (List Char × Span) → Bool → List Char → List Char → Prop
  | empty {gap : List Char} (isGap : IsGap gap) :
      LaidOut front [] false (gap ++ ['}']) ('{' :: gap ++ ['}'])
  | filled {properties : List (List Char × Span)} {text closing : List Char} {isTrailing : Bool}
      (upTo : UpTo front properties text) (closes : Closing isTrailing closing) :
      LaidOut front properties isTrailing closing (text ++ closing)

variable {front text closing gap : List Char} {properties : List (List Char × Span)}

theorem isGap_of_all (spaces : gap.all isSpace = true) : IsGap gap := by
  induction gap with
  | nil => exact .nothing
  | cons char rest ih =>
    rw [List.all_cons, Bool.and_eq_true] at spaces
    exact .space spaces.1 (ih spaces.2)

/-- The last property ends where the text up to it ends. -/
theorem UpTo.getLast? (upTo : UpTo front properties text) :
    (properties.map (·.2)).getLast?.map Span.stop = some (byteLength (front ++ text)) := by
  cases upTo <;> simp [placed]

/-- Items with commas before them become further properties. -/
theorem UpTo.extend (upTo : UpTo front properties text) (isGap : IsGap gap)
    (items : List (List Char)) :
    ∃ added, UpTo front (properties ++ added) (text ++ items.flatMap (',' :: gap ++ ·)) ∧
      added.map (·.1) = items := by
  induction items generalizing properties text with
  | nil => exact ⟨[], by simpa using upTo, rfl⟩
  | cons item items ih =>
    obtain ⟨added, extended, areItems⟩ := ih (upTo.next .nothing isGap item)
    refine ⟨placed (front ++ (text ++ [] ++ ',' :: gap)) item :: added, ?_,
      congrArg (item :: ·) areItems⟩
    simpa using extended

theorem commaSeparated_cons (item : List Char) (items : List (List Char)) :
    Style.commaSeparated (item :: items) = item ++ items.flatMap ([',', ' '] ++ ·) := by
  induction items generalizing item with
  | nil => simp [Style.commaSeparated]
  | cons next items ih =>
    have tail := ih next
    simp only [Style.commaSeparated, List.intercalate_cons_cons] at tail ⊢
    rw [tail]
    simp

/-- A new pattern of items is laid out without a comma at its end. -/
theorem laidOut_braced (front : List Char) (style : Style) {items : List (List Char)}
    (notEmpty : items ≠ []) :
    ∃ added closing, LaidOut front added false closing (style.braced items) ∧
      added.map (·.1) = items := by
  obtain ⟨item, rest, rfl⟩ := List.exists_cons_of_ne_nil notEmpty
  have blank : IsGap [' '] := .space (by decide) .nothing
  obtain ⟨pad, isPad, same⟩ : ∃ pad, IsGap pad ∧ style.braced (item :: rest) =
      '{' :: pad ++ item ++ rest.flatMap ([',', ' '] ++ ·) ++ (pad ++ ['}']) := by
    rw [Style.braced, if_neg (by simp), commaSeparated_cons]
    split
    · exact ⟨[' '], blank, by simp⟩
    · exact ⟨[], .nothing, by simp⟩
  have started : UpTo front _ _ := .first isPad item
  obtain ⟨added, extended, areItems⟩ := started.extend blank rest
  rw [same]
  exact ⟨_, _, .filled extended (.plain isPad), by simp [placed, areItems]⟩

/-- Behind the white space of a gap, a comment starts. -/
theorem IsGap.head? (isGap : IsGap gap) : ∀ char ∈ (gap.dropWhile isSpace).head?, char = '/' := by
  have notSpace : ¬ isSpace '/' = true := by decide
  induction isGap with
  | nothing => simp
  | space blank _ ih => rwa [List.dropWhile_cons_of_pos blank]
  | lineComment => simp [List.dropWhile_cons_of_neg notSpace]
  | blockComment => simp [List.dropWhile_cons_of_neg notSpace]

/-- A comma behind the properties is followed by a gap and the brace. -/
theorem LaidOut.exists_comma (laidOut : LaidOut front properties true closing text) :
    ∃ before gap, IsGap gap ∧ text = before ++ ',' :: (gap ++ ['}']) := by
  obtain _ | ⟨upTo, closes⟩ := laidOut
  obtain _ | ⟨isBefore, isAfter⟩ := closes
  exact ⟨_, _, isAfter, by rw [List.append_assoc, ← List.append_assoc, List.cons_append]⟩

/-! ## Merging -/

variable {setting : Setting} {target : Destructuring} {names : List String} {back : List Char}
  {isTrailing : Bool}

theorem lastEnd_of_destructuring? {statement extent span : Span} {parts more : List Node}
    (isTarget : Node.destructuring? statement
      (.mk .declarator extent (.mk .objectPattern span parts :: more)) = some target)
    (areParts : ∀ part ∈ parts, part.kind.isPatternPart = true) (noRest : target.hasRest = false) :
    target.lastEnd = (parts.map Node.span).getLast?.map Span.stop := by
  cases isTarget
  have areProperties : ∀ part ∈ parts,
      ∃ isShorthand isComputed, part.kind = .patternProperty isShorthand isComputed := by
    intro part member
    have isPart := areParts part member
    have notRest := List.any_eq_false.1 noRest part member
    cases isKind : part.kind <;> simp_all [Kind.isPatternPart]
  dsimp only
  rw [List.filter_eq_self.2, List.getLast?_map, Option.map_map]
  · rfl
  · intro part member
    obtain ⟨_, _, isKind⟩ := areProperties part member
    rw [isKind]

/-- A comma is added to a pattern of several lines if no comma follows its properties. -/
theorem addsComma_iff (isSource : setting.source = front ++ (text ++ closing) ++ back)
    (isPattern : target.pattern = (placed front (text ++ closing)).2) :
    addsComma setting target (byteLength (front ++ text)) = true ↔
      '\n' ∈ text ++ closing ∧ setting.style.trailingComma = true ∧ ',' ∉ closing := by
  have whole : slice setting.source target.pattern.start target.pattern.stop = text ++ closing := by
    rw [isSource, isPattern, List.append_assoc]
    exact slice_append front (text ++ closing) back
  have behind :
      slice setting.source (byteLength (front ++ text)) target.pattern.stop = closing := by
    rw [isSource, isPattern, placed, ← List.append_assoc front text closing, List.append_assoc]
    exact slice_append (front ++ text) closing back
  rw [addsComma, isMultiline, whole, behind]
  simp [and_assoc]

/-- Where a comma is added, it is the only one that closes the pattern. -/
theorem Closing.add (closes : Closing isTrailing closing) (noComma : ',' ∉ closing) :
    Closing true (',' :: closing) := by
  cases closes with
  | plain isGap => exact .comma .nothing isGap
  | comma => simp at noComma

/-- Names behind the last property of a pattern become its last properties. -/
theorem merged_behind (upTo : UpTo front properties text) (closes : Closing isTrailing closing)
    (isSource : setting.source = front ++ (text ++ closing) ++ back)
    (isPattern : target.pattern = (placed front (text ++ closing)).2)
    (isLast : target.lastEnd = some (byteLength (front ++ text))) (names : List String) :
    ∃ added isTrailing' closing' text',
      applyEdits setting.source [mergeEdit setting target names] = ⟨front ++ text' ++ back, []⟩ ∧
      LaidOut front (properties ++ added) isTrailing' closing' text' ∧
      added.map (·.1) = names.map String.toList ∧
      (isTrailing' = true ↔ isTrailing = true ∨
        '\n' ∈ text ++ closing ∧ setting.style.trailingComma = true ∧ ',' ∉ closing) := by
  have isGap := isGap_of_all (mergeGap_all setting target (byteLength (front ++ text)))
  obtain ⟨added, extended, areNames⟩ := upTo.extend isGap (names.map String.toList)
  have isEdit : mergeEdit setting target names =
      ⟨byteLength (front ++ text), byteLength (front ++ text ++ []),
        (mergeEdit setting target names).text⟩ := by
    rw [List.append_nil, mergeEdit, isLast]
    rfl
  have whole : setting.source = front ++ text ++ [] ++ (closing ++ back) := by
    rw [isSource]
    simp
  have applied := Edit.applyEdits_singleton (front ++ text) [] (closing ++ back)
    (mergeEdit setting target names).text
  rw [← isEdit, ← whole, text_mergeEdit names isLast] at applied
  have iff := addsComma_iff isSource isPattern
  cases adds : addsComma setting target (byteLength (front ++ text)) with
  | true =>
    have holds := iff.1 adds
    refine ⟨added, true, _, _, ?_, .filled extended (closes.add holds.2.2), areNames,
      by simp [holds]⟩
    rw [applied, adds]
    simp
  | false =>
    rw [adds] at iff
    refine ⟨added, isTrailing, _, _, ?_, .filled extended closes, areNames, ?_⟩
    · rw [applied, adds]
      simp
    · rw [← iff]
      simp

/--
In a pattern that is laid out with its properties, the names that are merged into
it become its last properties, and it is laid out in the same way.  If it had a
property, a comma stands behind the last one exactly if one stood there before, or
if the pattern has several lines, commas are asked for and there is no comma in
what closes the pattern, comments included.
-/
theorem merged_patterns_are_laid_out {statement extent span : Span} {parts more : List Node}
    (isTarget : Node.destructuring? statement
      (.mk .declarator extent (.mk .objectPattern span parts :: more)) = some target)
    (areParts : ∀ part ∈ parts, part.kind.isPatternPart = true) (noRest : target.hasRest = false)
    (isSource : setting.source = front ++ text ++ back) (isSpan : span = (placed front text).2)
    (laidOut : LaidOut front properties isTrailing closing text)
    (areProperties : parts.map Node.span = properties.map (·.2)) (notEmpty : names ≠ []) :
    ∃ added isTrailing' closing' text',
      applyEdits setting.source [mergeEdit setting target names] = ⟨front ++ text' ++ back, []⟩ ∧
      LaidOut front (properties ++ added) isTrailing' closing' text' ∧
      added.map (·.1) = names.map String.toList ∧
      (properties ≠ [] → (isTrailing' = true ↔ isTrailing = true ∨
        '\n' ∈ text ∧ setting.style.trailingComma = true ∧ ',' ∉ closing)) := by
  have isLast := lastEnd_of_destructuring? isTarget areParts noRest
  have isPattern : target.pattern = (placed front text).2 := by
    cases isTarget
    exact isSpan
  rw [areProperties] at isLast
  cases laidOut with
  | @empty gap isGap =>
    have areItems : names.map String.toList ≠ [] := by simpa using notEmpty
    obtain ⟨added, closing', laidOut, areNames⟩ := laidOut_braced front setting.style areItems
    refine ⟨added, false, closing', _, ?_, laidOut, areNames, fun filled => absurd rfl filled⟩
    have isEdit : mergeEdit setting target names = .replace (placed front ('{' :: gap ++ ['}'])).2
        (setting.style.braced (names.map String.toList)) := by
      rw [mergeEdit, isLast, isPattern]
      rfl
    rw [isSource, isEdit]
    exact Edit.applyEdits_singleton _ _ _ _
  | filled upTo closes =>
    rw [upTo.getLast?] at isLast
    obtain ⟨added, isTrailing', closing', text', applied, laidOut, areNames, iff⟩ :=
      merged_behind upTo closes isSource isPattern isLast names
    exact ⟨added, isTrailing', closing', text', applied, laidOut, areNames, fun _ => iff⟩

/-- What stands before the pattern of a sample, and what stands behind it. -/
def beforePattern : List Char :=
  "function f() ".toList ++ '{' :: "\n  const ".toList

def behindPattern : List Char :=
  " = this.props;\n  return this.props.b;\n".toList ++ ['}']

def settingOf (pattern : List Char) : Setting :=
  ⟨beforePattern ++ pattern ++ behindPattern, .standard, .this, .empty⟩

/-- The declarator of a sample: a pattern of properties, each of them a name. -/
def declaratorOf (span : Span) (names : List (String × Span)) : Node :=
  .mk .declarator ⟨span.start, span.stop + 13⟩ [
    .mk .objectPattern span (names.map fun name =>
      .mk (.patternProperty true false) name.2 [.mk (.binding name.1) name.2 []]),
    .mk (.member "props" false) ⟨span.stop + 3, span.stop + 13⟩ [
      .mk .thisExpression ⟨span.stop + 3, span.stop + 7⟩ [],
      .mk (.name "props") ⟨span.stop + 8, span.stop + 13⟩ []]]

/-- What is known of the pattern of a sample. -/
def targetOf (span : Span) (names : List (String × Span)) : Destructuring :=
  ⟨⟨17, span.stop + 14⟩, span, some ⟨.this, ["props"]⟩, names.map fun name => some name.1,
    names.getLast?.map fun name => name.2.stop, false⟩

/-- Two properties on lines of their own, with a comment between them. -/
def commentedPattern : List Char :=
  "{
    a, // x
    b
  }".toList

theorem laidOut_commentedPattern :
    LaidOut beforePattern [("a".toList, ⟨29, 30⟩), ("b".toList, ⟨41, 42⟩)] false
      ("\n  ".toList ++ ['}']) commentedPattern := by
  have line : IsGap "\n    ".toList := isGap_of_all (by decide)
  have comment : IsGap " // x\n    ".toList :=
    .space (by decide) (@IsGap.lineComment " x".toList "    ".toList '\n' (by decide) (by decide)
      (isGap_of_all (by decide)))
  have last : IsGap "\n  ".toList := isGap_of_all (by decide)
  exact .filled (.next (.first line ['a']) .nothing comment ['b']) (.plain last)

theorem merged_patterns_are_laid_out_in_commentedPattern :
    Node.destructuring? ⟨17, 60⟩ (declaratorOf ⟨23, 46⟩ [("a", ⟨29, 30⟩), ("b", ⟨41, 42⟩)]) =
      some (targetOf ⟨23, 46⟩ [("a", ⟨29, 30⟩), ("b", ⟨41, 42⟩)]) ∧
    ∃ added closing text,
      applyEdits (settingOf commentedPattern).source [mergeEdit (settingOf commentedPattern)
        (targetOf ⟨23, 46⟩ [("a", ⟨29, 30⟩), ("b", ⟨41, 42⟩)]) ["c", "d"]] =
          ⟨beforePattern ++ text ++ behindPattern, []⟩ ∧
      LaidOut beforePattern ([("a".toList, ⟨29, 30⟩), ("b".toList, ⟨41, 42⟩)] ++ added) true
        closing text ∧
      added.map (·.1) = ["c".toList, "d".toList] := by
  have isTarget : Node.destructuring? ⟨17, 60⟩
      (declaratorOf ⟨23, 46⟩ [("a", ⟨29, 30⟩), ("b", ⟨41, 42⟩)]) =
        some (targetOf ⟨23, 46⟩ [("a", ⟨29, 30⟩), ("b", ⟨41, 42⟩)]) := rfl
  obtain ⟨added, isTrailing, closing, text, applied, laidOut, areNames, iff⟩ :=
    merged_patterns_are_laid_out isTarget (by decide) rfl
      (rfl : (settingOf commentedPattern).source = _) rfl laidOut_commentedPattern rfl
      (List.cons_ne_nil "c" ["d"])
  obtain rfl : isTrailing = true := (iff (by simp)).2 (Or.inr (by decide))
  exact ⟨isTarget, added, closing, text, applied, laidOut, areNames⟩

/-- A property on a line of its own, with a comma in the comment behind it. -/
def commaInComment : List Char :=
  "{
    a // x, y
  }".toList

/-- The pattern with a name behind its property. -/
def nameBeforeComment : List Char :=
  "{
    a,
    b // x, y
  }".toList

/--
Where a comment behind the last property has a comma, none is added, although the
pattern has several lines, has no comma at its end, and commas are asked for.
-/
theorem comma_in_comment_is_taken_for_the_last :
    Node.destructuring? ⟨17, 56⟩ (declaratorOf ⟨23, 42⟩ [("a", ⟨29, 30⟩)]) =
      some (targetOf ⟨23, 42⟩ [("a", ⟨29, 30⟩)]) ∧
    LaidOut beforePattern [("a".toList, ⟨29, 30⟩)] false (" // x, y\n  ".toList ++ ['}'])
      commaInComment ∧
    '\n' ∈ commaInComment ∧ (settingOf commaInComment).style.trailingComma = true ∧
    applyEdits (settingOf commaInComment).source [mergeEdit (settingOf commaInComment)
      (targetOf ⟨23, 42⟩ [("a", ⟨29, 30⟩)]) ["b"]] =
        ⟨beforePattern ++ nameBeforeComment ++ behindPattern, []⟩ ∧
    ∀ properties closing, ¬ LaidOut beforePattern properties true closing nameBeforeComment := by
  have line : IsGap "\n    ".toList := isGap_of_all (by decide)
  have comment : IsGap " // x, y\n  ".toList :=
    .space (by decide) (@IsGap.lineComment " x, y".toList "  ".toList '\n' (by decide) (by decide)
      (isGap_of_all (by decide)))
  refine ⟨rfl, .filled (.first line ['a']) (.plain comment), by decide, rfl, by decide,
    fun properties closing laidOut => ?_⟩
  obtain ⟨before, gap, isGap, isText⟩ := laidOut.exists_comma
  -- Behind neither of the two commas stands a gap only.
  have each : ∀ index < nameBeforeComment.length, nameBeforeComment[index]? = some ',' →
      ((nameBeforeComment.drop (index + 1)).dropLast.dropWhile isSpace).head?.any (· != '/') =
        true := by
    decide
  rw [isText] at each
  have found := each before.length (by simp) (by simp)
  have behind : (before ++ ',' :: (gap ++ ['}'])).drop (before.length + 1) = gap ++ ['}'] := by
    simp [← List.drop_drop]
  rw [behind, List.dropLast_concat] at found
  obtain ⟨char, isHead, notSlash⟩ := (Option.any_eq_true ..).1 found
  rw [isGap.head? char isHead] at notSlash
  cases notSlash

end Codemod.Destructure
