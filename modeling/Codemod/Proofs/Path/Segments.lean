import Codemod.Path.Filter
import Mathlib.Data.List.Forall2

/-!
# Literal patterns and the segments of a path

A literal pattern is looked for in a path as text: behind a slash that is put in
front of both, and with a slash behind it if it names a directory.  The slashes
keep the names whole, so the search by text is a search by segments.  Each
segment of a path stands behind one slash of the text (`cons_slash_eq`), and
behind each slash of the text starts a segment (`segments_append_slash`).
-/

namespace Codemod

/-- A text occurs in another one if it stands somewhere in it. -/
theorem Text.occursIn_iff {part text : List Char} :
    Text.occursIn part text = true ↔ part <:+: text := by
  induction text with
  | nil => rw [Text.occursIn, List.isEmpty_iff, List.infix_nil]
  | cons char rest ih =>
    rw [Text.occursIn, Bool.or_eq_true, List.isPrefixOf_iff_prefix, ih,
      List.infix_cons_iff]

namespace PathFilter

variable {text rest pattern path stem : List Char}

/-! ## What is looked for, and in what -/

/-- A text with a slash for each backslash. -/
def slashed (text : List Char) : List Char :=
  text.map fun char => if char == '\\' then '/' else char

/-- A character of a path, and a way to write it. -/
def WrittenAs (char written : Char) : Prop :=
  written = char ∨ char = '/' ∧ written = '\\'

instance : DecidableRel WrittenAs := fun char written =>
  inferInstanceAs (Decidable (written = char ∨ char = '/' ∧ written = '\\'))

/-- What remains of a text without the `./` in front, however many there are. -/
def IsRest (text rest : List Char) : Prop :=
  ∃ count, text = (List.replicate count ['.', '/']).flatten ++ rest ∧ ¬ ['.', '/'] <+: rest

theorem trimDots_of_not_prefix (stops : ¬ ['.', '/'] <+: text) : trimDots text = text := by
  fun_cases trimDots text with
  | case1 rest => exact absurd (List.prefix_append ['.', '/'] rest) stops
  | case2 => rfl

theorem isRest_iff : IsRest text rest ↔ trimDots text = rest := by
  constructor
  · rintro ⟨count, rfl, stops⟩
    induction count with
    | zero => exact trimDots_of_not_prefix stops
    | succ count ih =>
      rw [List.replicate_succ, List.flatten_cons]
      exact ih
  · rintro rfl
    fun_induction trimDots text with
    | case1 rest ih =>
      obtain ⟨count, isRest, stops⟩ := ih
      refine ⟨count + 1, ?_, stops⟩
      rw [List.replicate_succ, List.flatten_cons, List.append_assoc, ← isRest]
      rfl
    | case2 text stops =>
      refine ⟨0, rfl, ?_⟩
      rintro ⟨rest, rfl⟩
      exact stops rest rfl

theorem slashed_eq_of_writtenAs {written : List Char}
    (isWritten : List.Forall₂ WrittenAs text written) : slashed written = slashed text := by
  induction isWritten with
  | nil => rfl
  | cons isChar _ ih =>
    rw [slashed, slashed, List.map_cons, List.map_cons]
    congr 1
    rcases isChar with rfl | ⟨rfl, rfl⟩ <;> rfl

/-! ## Segments -/

/-- The names between the slashes of a text. -/
def segments (text : List Char) : List (List Char) :=
  text.splitOn '/'

/--
What a literal pattern names: a directory above the file if it ends in a slash,
and otherwise the last segments of the path.
-/
inductive Names : (pattern path : List Char) → Prop
  | directory {stem path : List Char} {before after : List (List Char)} : after ≠ [] →
      segments path = before ++ segments stem ++ after → Names (stem ++ ['/']) path
  | file {pattern path : List Char} : ¬ ['/'] <:+ pattern →
      segments pattern <:+ segments path → Names pattern path

theorem segments_append_slash (front back : List Char) :
    segments (front ++ '/' :: back) = segments front ++ segments back :=
  List.splitOn_append_cons_self front back

theorem cons_slash_intercalate (first : List Char) (others : List (List Char)) :
    '/' :: ['/'].intercalate (first :: others) = (first :: others).flatMap ('/' :: ·) := by
  induction others generalizing first with
  | nil => simp
  | cons second others ih =>
    rw [List.flatMap_cons, ← ih second, List.intercalate_cons_cons]
    simp

/-- Segments with a slash in front of each are the text with a slash in front. -/
theorem cons_slash_eq (text : List Char) : '/' :: text = (segments text).flatMap ('/' :: ·) := by
  obtain ⟨first, others, isSplit⟩ := List.exists_cons_of_ne_nil (List.splitOn_ne_nil '/' text)
  rw [segments, isSplit, ← cons_slash_intercalate, ← isSplit, List.intercalate_splitOn]

/-- What stands behind a slash, up to the end, is made of the last segments. -/
theorem slash_suffix_iff : '/' :: text <:+ '/' :: path ↔ segments text <:+ segments path := by
  constructor
  · rw [List.suffix_cons_iff]
    rintro (same | ⟨front, rfl⟩)
    · obtain rfl : text = path := (List.cons.inj same).2
      exact List.suffix_rfl
    · rw [segments_append_slash]
      exact List.suffix_append _ _
  · rintro ⟨before, isPath⟩
    rw [cons_slash_eq path, ← isPath, List.flatMap_append, ← cons_slash_eq]
    exact List.suffix_append _ _

/-- What stands between two slashes is made of segments that are not the last. -/
theorem slash_infix_iff : '/' :: stem ++ ['/'] <:+: '/' :: path ↔
      ∃ before after, after ≠ [] ∧ segments path = before ++ segments stem ++ after := by
  constructor
  · rintro ⟨front, back, isPath⟩
    have isEnd : '/' :: (stem ++ '/' :: back) <:+ '/' :: path := ⟨front, by simpa using isPath⟩
    obtain ⟨before, isPath⟩ := slash_suffix_iff.1 isEnd
    refine ⟨before, segments back, List.splitOn_ne_nil '/' back, ?_⟩
    rw [← isPath, segments_append_slash, List.append_assoc]
  · rintro ⟨before, after, isSome, isPath⟩
    obtain ⟨next, others, rfl⟩ := List.exists_cons_of_ne_nil isSome
    refine ⟨before.flatMap ('/' :: ·), next ++ others.flatMap ('/' :: ·), ?_⟩
    rw [cons_slash_eq path, isPath, List.flatMap_append, List.flatMap_append, ← cons_slash_eq stem]
    simp

/-! ## The search -/

theorem literalMatches_directory (stem path : List Char) : literalMatches (stem ++ ['/']) path =
      Text.occursIn ('/' :: stem ++ ['/']) ('/' :: path) := by
  simp [literalMatches]

theorem literalMatches_file (isFile : ¬ ['/'] <:+ pattern) :
    literalMatches pattern path = ('/' :: pattern).isSuffixOf ('/' :: path) := by
  rw [literalMatches]
  split
  · next reversed isReversed =>
    have isPattern := List.reverse_eq_cons_iff.1 isReversed
    exact absurd ⟨reversed.reverse, isPattern.symm⟩ isFile
  · rfl

theorem literalMatches_iff : literalMatches pattern path = true ↔ Names pattern path := by
  by_cases isDirectory : ['/'] <:+ pattern
  · obtain ⟨stem, rfl⟩ := isDirectory
    rw [literalMatches_directory, Text.occursIn_iff, slash_infix_iff]
    constructor
    · rintro ⟨before, after, isSome, isPath⟩
      exact .directory isSome isPath
    · intro names
      generalize isPattern : stem ++ ['/'] = pattern at names
      cases names with
      | directory isSome isPath =>
        rw [List.append_cancel_right isPattern]
        exact ⟨_, _, isSome, isPath⟩
      | file isFile _ => exact absurd ⟨stem, isPattern⟩ isFile
  · rw [literalMatches_file isDirectory, List.isSuffixOf_iff_suffix, slash_suffix_iff]
    constructor
    · exact .file isDirectory
    · intro names
      cases names with
      | directory => exact absurd (List.suffix_append _ _) isDirectory
      | file _ isEnd => exact isEnd

/-- A pattern without any of the characters that make a glob. -/
def IsLiteral (pattern : String) : Prop :=
  ∀ char ∈ pattern.toList, char ≠ '*' ∧ char ≠ '?' ∧ char ≠ '['

instance : DecidablePred IsLiteral := fun pattern =>
  List.decidableBAll _ pattern.toList

theorem trimDots_suffix (text : List Char) : trimDots text <:+ text := by
  obtain ⟨count, isText, _⟩ := isRest_iff.2 (Eq.refl (trimDots text))
  exact ⟨_, isText.symm⟩

theorem IsLiteral.isGlob_trimDots {pattern : String} (isLiteral : IsLiteral pattern) :
    isGlob (trimDots pattern.toList) = false := by
  rw [isGlob, List.any_eq_false]
  intro char member
  have plain := isLiteral char ((trimDots_suffix pattern.toList).mem member)
  simp [plain]

/-- Literal patterns are tried until one of them matches. -/
theorem isMatch_tryPatterns_iff {patterns : List String}
    (areLiteral : ∀ pattern ∈ patterns, IsLiteral pattern) :
    (tryPatterns path patterns).isMatch = true ↔
      ∃ pattern ∈ patterns, literalMatches (trimDots pattern.toList) path = true := by
  induction patterns with
  | nil => simp [tryPatterns]
  | cons first others ih =>
    have isLiteral := areLiteral first List.mem_cons_self
    have later := ih fun pattern member =>
      areLiteral pattern (List.mem_cons_of_mem first member)
    rw [tryPatterns, isLiteral.isGlob_trimDots, List.exists_mem_cons_iff, ← later]
    cases literalMatches (trimDots first.toList) path <;> simp

theorem check_eq {patterns : List String} (isFilter : patterns ≠ []) (path : String) :
    check patterns path = tryPatterns (trimDots (slashed path.toList)) patterns := by
  rw [check, if_neg (by simpa using isFilter)]
  rfl

/--
A path passes a filter of literal patterns exactly if one of them names a
directory above the file or the last segments of the path.  The `./` in front of
patterns and paths do not count, and a path may have backslashes for slashes.
-/
theorem literal_filters_match_segments {patterns : List String} (isFilter : patterns ≠ [])
    (areLiteral : ∀ pattern ∈ patterns, IsLiteral pattern) (path : String) :
    ((check patterns path).isMatch = true ↔
      ∃ pattern ∈ patterns, ∃ named place, IsRest pattern.toList named ∧
        IsRest (slashed path.toList) place ∧ Names named place) ∧
    check patterns ("./" ++ path) = check patterns path ∧
    ∀ other : String, List.Forall₂ WrittenAs path.toList other.toList →
      check patterns other = check patterns path := by
  refine ⟨?_, ?_, ?_⟩
  · rw [check_eq isFilter, isMatch_tryPatterns_iff areLiteral]
    simp only [isRest_iff, literalMatches_iff, exists_eq_left', exists_and_left]
  · rw [check_eq isFilter, check_eq isFilter, String.toList_append]
    rfl
  · intro other isWritten
    rw [check_eq isFilter, check_eq isFilter, slashed_eq_of_writtenAs isWritten]

/-- A directory of two names, and a file. -/
def utilFilter : List String :=
  ["./lib/util/", "App.js"]

/-- Whole names are found, in whatever way the path is written, and parts of names are not. -/
theorem literal_filters_match_segments_of_utilFilter :
    utilFilter ≠ [] ∧ (∀ pattern ∈ utilFilter, IsLiteral pattern) ∧
    (check utilFilter ".\\src\\lib/util\\a.js").isMatch = true ∧
    check utilFilter "src\\lib\\App.js" = check utilFilter "src/lib/App.js" ∧
    ¬ ∃ pattern ∈ utilFilter, ∃ named place, IsRest pattern.toList named ∧
      IsRest (slashed "src/lib/utility/MyApp.js".toList) place ∧ Names named place := by
  have isFilter : utilFilter ≠ [] := List.cons_ne_nil _ _
  have areLiteral : ∀ pattern ∈ utilFilter, IsLiteral pattern := by decide +kernel
  have result := literal_filters_match_segments isFilter areLiteral
  have isPath : segments "src/lib/util/a.js".toList =
      ["src".toList] ++ segments "lib/util".toList ++ ["a.js".toList] := by
    decide +kernel
  have names := Names.directory (List.cons_ne_nil _ _) isPath
  refine ⟨isFilter, areLiteral, ?_, ?_, ?_⟩
  · refine (result _).1.2 ⟨"./lib/util/", List.mem_cons_self, _, _, ?_, ?_, names⟩
    · exact isRest_iff.2 (by decide +kernel)
    · exact isRest_iff.2 (by decide +kernel)
  · refine (result _).2.2 _ ?_
    decide +kernel
  · rw [← (result _).1]
    decide +kernel

end PathFilter

end Codemod
