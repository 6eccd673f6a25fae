import Codemod.Pipeline

/-!
# Pipelines in a row

A pipeline is a loop over transforms that threads a text, two lists of names
and a failure.  `Passes` says what one round of the loop can do to a transform:
its filter turns the path away, it changes the text, or it runs and changes
nothing.  A pipeline succeeds exactly if its transforms pass in this way, and
ends at the first text that does not parse otherwise (`output_eq_ok_iff` and
`output_eq_error_iff`).

Cutting the list of transforms in two gives two pipelines, the second on the
text that the first one left.  Only the question whether the text changed at
all cannot be answered from the parts: the second may undo what the first did.
-/

namespace Codemod

namespace Transform

variable {transform : Transform} {dialect : Dialect} {options : TransformOptions}
  {source : List Char}

/-- A transform runs on every text that parses. -/
theorem run_eq_none_iff :
    transform.run dialect options source = none ↔ parseProgram dialect source = none :=
  Option.map_eq_none_iff

theorem isChanged_of_run {own : Output} (ran : transform.run dialect options source = some own) :
    own.isChanged = (own.text != source) := by
  obtain ⟨program, _, rfl⟩ := Option.map_eq_some_iff.1 ran
  rfl

end Transform

namespace Pipeline

/-- What a pipeline does with one of its transforms. -/
inductive Fate where
  /-- The path filter of the transform turned the file away. -/
  | filtered
  /-- The transform changed the text. -/
  | applied
  /-- The transform ran and left the text as it was. -/
  | idle
  deriving DecidableEq, Repr

section

variable (dialect : Dialect) (options : TransformOptions) (path : String)

/-- Whether the path filter of a transform lets the file pass. -/
def admits (transform : Transform) : Bool :=
  (PathFilter.check (options.pathsFor transform) path).isMatch

/-- What becomes of a transform that meets a text, and of the text. -/
inductive Meets (transform : Transform) (source : List Char) : Fate → List Char → Prop
  | filtered (rejected : admits options path transform = false) :
      Meets transform source .filtered source
  | applied {own : Output} (admitted : admits options path transform = true)
      (ran : transform.run dialect options source = some own)
      (differs : own.text ≠ source) : Meets transform source .applied own.text
  | idle {own : Output} (admitted : admits options path transform = true)
      (ran : transform.run dialect options source = some own)
      (same : own.text = source) : Meets transform source .idle source

/-- Transforms meet a text one after the other, each the text that the last one left. -/
inductive Passes : List Transform → List Char → List Fate → List Char → Prop
  | nil {source : List Char} : Passes [] source [] source
  | cons {transform : Transform} {rest : List Transform} {fate : Fate}
      {fates : List Fate} {source middle text : List Char}
      (meets : Meets dialect options path transform source fate middle)
      (later : Passes rest middle fates text) :
      Passes (transform :: rest) source (fate :: fates) text

end

/-- The names of the transforms with a fate, in order. -/
def namesWith (fate : Fate) (transforms : List Transform) (fates : List Fate) :
    List String :=
  ((transforms.zip fates).filter fun entry => entry.2 == fate).map fun entry =>
    entry.1.name

theorem namesWith_cons (fate first : Fate) (transform : Transform)
    (transforms : List Transform) (fates : List Fate) :
    namesWith fate (transform :: transforms) (first :: fates) =
      if first = fate then transform.name :: namesWith fate transforms fates
      else namesWith fate transforms fates := by
  by_cases same : first = fate <;> simp [namesWith, same]

/-- The result that lists transforms by their fates. -/
def summary (transforms : List Transform) (fates : List Fate)
    (source text : List Char) : PipelineOutput where
  text := text
  applied := namesWith .applied transforms fates
  filtered := namesWith .filtered transforms fates
  isChanged := text != source

/-- The result of the later rounds, seen from before a round. -/
def record (transform : Transform) (fate : Fate) (source : List Char)
    (output : PipelineOutput) : PipelineOutput where
  text := output.text
  applied := if fate = .applied then transform.name :: output.applied else output.applied
  filtered :=
    if fate = .filtered then transform.name :: output.filtered else output.filtered
  isChanged := output.text != source

theorem record_summary (transform : Transform) (fate : Fate)
    (transforms : List Transform) (fates : List Fate) (source middle text : List Char) :
    record transform fate source (summary transforms fates middle text) =
      summary (transform :: transforms) (fate :: fates) source text := by
  simp only [record, summary, namesWith_cons]

variable {dialect : Dialect} {options : TransformOptions} {path : String}
  {transform : Transform} {rest : List Transform} {source : List Char}

/-! ## One round -/

variable {output : PipelineOutput} {transforms : List Transform} {fate : Fate} {middle : List Char}
  {result : Except ParseFailure PipelineOutput} {change : PipelineOutput → PipelineOutput}

theorem map_eq_ok_iff :
    result.map change = .ok output ↔ ∃ last, result = .ok last ∧ change last = output := by
  cases result <;> simp [Except.map]

theorem map_eq_error_iff {failure : ParseFailure} :
    result.map change = .error failure ↔ result = .error failure := by
  cases result <;> simp [Except.map]

theorem run_of_rejected (rejected : admits options path transform = false) :
    (run dialect options path (transform :: rest) source).output =
      (run dialect options path rest source).output.map fun output =>
        { output with filtered := transform.name :: output.filtered } := by
  rw [admits] at rejected
  simp [run, rejected]

theorem run_of_unread (admitted : admits options path transform = true)
    (unread : transform.run dialect options source = none) :
    (run dialect options path (transform :: rest) source).output = .error ⟨source⟩ := by
  rw [admits] at admitted
  simp [run, admitted, unread]

theorem run_of_ran (admitted : admits options path transform = true) {own : Output}
    (ran : transform.run dialect options source = some own) :
    (run dialect options path (transform :: rest) source).output =
      (run dialect options path rest own.text).output.map fun output =>
        { output with
          applied :=
            if own.isChanged then transform.name :: output.applied else output.applied
          isChanged := output.text != source } := by
  rw [admits] at admitted
  simp [run, admitted, ran]

/-- The flag of a result says whether the text is another one. -/
theorem isChanged_eq {source : List Char}
    (isOutput : (run dialect options path transforms source).output = .ok output) :
    output.isChanged = (output.text != source) := by
  induction transforms generalizing source output with
  | nil =>
    cases isOutput
    simp
  | cons transform rest ih =>
    cases admitted : admits options path transform with
    | false =>
      rw [run_of_rejected admitted, map_eq_ok_iff] at isOutput
      rcases isOutput with ⟨last, later, rfl⟩
      have settled := ih later
      exact settled
    | true =>
      cases ran : transform.run dialect options source with
      | none =>
        rw [run_of_unread admitted ran] at isOutput
        cases isOutput
      | some own =>
        rw [run_of_ran admitted ran, map_eq_ok_iff] at isOutput
        rcases isOutput with ⟨last, _, rfl⟩
        rfl

/-! ## What a round does -/

/-- A transform meets a text, or the text does not parse. -/
theorem meets_or_unread (dialect : Dialect) (options : TransformOptions) (path : String)
    (transform : Transform) (source : List Char) :
    (∃ fate middle, Meets dialect options path transform source fate middle) ∨
      admits options path transform = true ∧ transform.run dialect options source = none := by
  cases admitted : admits options path transform with
  | false => exact Or.inl ⟨.filtered, source, .filtered admitted⟩
  | true =>
    cases ran : transform.run dialect options source with
    | none => exact Or.inr ⟨rfl, rfl⟩
    | some own =>
      by_cases same : own.text = source
      · exact Or.inl ⟨.idle, source, .idle admitted ran same⟩
      · exact Or.inl ⟨.applied, own.text, .applied admitted ran same⟩

section

variable (meets : Meets dialect options path transform source fate middle)
include meets

theorem Meets.run_ne_none (admitted : admits options path transform = true) :
    transform.run dialect options source ≠ none := by
  cases meets with
  | filtered rejected =>
    rw [rejected] at admitted
    cases admitted
  | applied _ ran => simp [ran]
  | idle _ ran => simp [ran]

/-- A text decides what becomes of a transform that meets it. -/
theorem Meets.unique {otherFate : Fate} {otherMiddle : List Char}
    (other : Meets dialect options path transform source otherFate otherMiddle) :
    fate = otherFate ∧ middle = otherMiddle := by
  cases meets <;> cases other <;> simp_all

/-- A round hands its text on and puts the name of its transform where it belongs. -/
theorem Meets.output_cons : (run dialect options path (transform :: rest) source).output =
      (run dialect options path rest middle).output.map (record transform fate source) := by
  cases meets with
  | filtered rejected =>
    rw [run_of_rejected rejected]
    cases later : (run dialect options path rest source).output with
    | error failure => rfl
    | ok output => simp [Except.map, record, isChanged_eq later]
  | applied admitted ran differs =>
    rw [run_of_ran admitted ran, Transform.isChanged_of_run ran, bne_iff_ne.2 differs]
    rfl
  | @idle own admitted ran same =>
    have unchanged : (own.text != source) = false := by simp [same]
    rw [run_of_ran admitted ran, Transform.isChanged_of_run ran, unchanged, same]
    rfl

end

/-! ## What a pipeline does -/

/-- A pipeline succeeds exactly if its transforms pass, and it lists them by their fates. -/
theorem output_eq_ok_iff {source : List Char} :
    (run dialect options path transforms source).output = .ok output ↔
      ∃ fates text, Passes dialect options path transforms source fates text ∧
        output = summary transforms fates source text := by
  induction transforms generalizing source output with
  | nil =>
    constructor
    · intro isOutput
      cases isOutput
      exact ⟨[], source, .nil, by simp [summary, namesWith]⟩
    · rintro ⟨fates, text, passes, rfl⟩
      cases passes
      simp [run, summary, namesWith]
  | cons transform rest ih =>
    rcases meets_or_unread dialect options path transform source with
      ⟨fate, middle, meets⟩ | ⟨admitted, unread⟩
    · rw [meets.output_cons, map_eq_ok_iff]
      constructor
      · rintro ⟨last, later, rfl⟩
        rcases ih.1 later with ⟨fates, text, passes, rfl⟩
        exact ⟨fate :: fates, text, .cons meets passes,
          record_summary transform fate rest fates source middle text⟩
      · rintro ⟨_, text, passes, rfl⟩
        cases passes with
        | cons other passes =>
          rcases meets.unique other with ⟨rfl, rfl⟩
          exact ⟨_, ih.2 ⟨_, text, passes, rfl⟩,
            record_summary transform fate rest _ source middle text⟩
    · rw [run_of_unread admitted unread]
      constructor
      · intro isOutput
        cases isOutput
      · rintro ⟨_, _, passes, _⟩
        cases passes with
        | cons meets => exact absurd unread (meets.run_ne_none admitted)

/-- A pipeline fails exactly at a text that does not parse and that a transform gets. -/
theorem output_eq_error_iff {source : List Char} {failure : ParseFailure} :
    (run dialect options path transforms source).output = .error failure ↔
      ∃ before transform behind fates, transforms = before ++ transform :: behind ∧
        Passes dialect options path before source fates failure.text ∧
        admits options path transform = true ∧
        parseProgram dialect failure.text = none := by
  induction transforms generalizing source with
  | nil =>
    constructor
    · intro isError
      cases isError
    · rintro ⟨before, _, _, _, split, _⟩
      simp at split
  | cons transform rest ih =>
    rcases meets_or_unread dialect options path transform source with
      ⟨fate, middle, meets⟩ | ⟨admitted, unread⟩
    · rw [meets.output_cons, map_eq_error_iff, ih]
      constructor
      · rintro ⟨before, last, behind, fates, rfl, passes, admitted, unread⟩
        exact ⟨transform :: before, last, behind, fate :: fates, rfl,
          .cons meets passes, admitted, unread⟩
      · rintro ⟨before, last, behind, fates, split, passes, admitted, unread⟩
        cases passes with
        | nil =>
          rw [List.nil_append, List.cons.injEq] at split
          rcases split with ⟨rfl, rfl⟩
          exact absurd (Transform.run_eq_none_iff.2 unread) (meets.run_ne_none admitted)
        | cons other passes =>
          rw [List.cons_append, List.cons.injEq] at split
          rcases split with ⟨rfl, rfl⟩
          rcases meets.unique other with ⟨rfl, rfl⟩
          exact ⟨_, last, behind, _, rfl, passes, admitted, unread⟩
    · rw [run_of_unread admitted unread]
      constructor
      · intro isError
        cases isError
        exact ⟨[], transform, rest, [], rfl, .nil, admitted, Transform.run_eq_none_iff.1 unread⟩
      · rintro ⟨before, last, behind, fates, split, passes, _⟩
        cases passes with
        | nil => rfl
        | cons meets =>
          rw [List.cons_append, List.cons.injEq] at split
          rcases split with ⟨rfl, rfl⟩
          exact absurd unread (meets.run_ne_none admitted)

/-! ## Two pipelines -/

/-- The result of a pipeline on the result of another one, seen from the first text. -/
def join (source : List Char) (before after : PipelineOutput) : PipelineOutput where
  text := after.text
  applied := before.applied ++ after.applied
  filtered := before.filtered ++ after.filtered
  isChanged := after.text != source

theorem join_record (transform : Transform) (fate : Fate) (source middle : List Char)
    (before after : PipelineOutput) :
    join source (record transform fate source before) after =
      record transform fate source (join middle before after) := by
  simp only [join, record]
  split <;> split <;> rfl

theorem output_append (first second : List Transform) (source : List Char) :
    (run dialect options path (first ++ second) source).output =
      (run dialect options path first source).output.bind fun before =>
        (run dialect options path second before.text).output.map (join source before) := by
  induction first generalizing source with
  | nil =>
    simp only [List.nil_append, run, Except.bind]
    cases later : (run dialect options path second source).output with
    | error failure => rfl
    | ok output => simp [Except.map, join, ← isChanged_eq later]
  | cons transform rest ih =>
    rw [List.cons_append]
    rcases meets_or_unread dialect options path transform source with
      ⟨fate, middle, meets⟩ | ⟨admitted, unread⟩
    · rw [meets.output_cons, meets.output_cons, ih]
      cases (run dialect options path rest middle).output with
      | error failure => rfl
      | ok before =>
        change Except.map _ (Except.map _ _) =
          Except.map (join source (record transform fate source before))
            (run dialect options path second before.text).output
        cases (run dialect options path second before.text).output with
        | error failure => rfl
        | ok after =>
          exact congrArg Except.ok (join_record transform fate source middle before after).symm
    · rw [run_of_unread admitted unread, run_of_unread admitted unread]
      rfl

theorem eq_join_iff {source : List Char} {before after : PipelineOutput} :
    output = join source before after ↔
      output.text = after.text ∧ output.applied = before.applied ++ after.applied ∧
        output.filtered = before.filtered ++ after.filtered ∧
        (output.isChanged = true ↔ output.text ≠ source) := by
  constructor
  · rintro rfl
    exact ⟨rfl, rfl, rfl, bne_iff_ne⟩
  · rcases output with ⟨text, applied, filtered, isChanged⟩
    rintro ⟨sameText, sameApplied, sameFiltered, differs⟩
    dsimp only at sameText sameApplied sameFiltered differs
    subst sameText sameApplied sameFiltered
    rw [← bne_iff_ne] at differs
    rw [join, Bool.eq_iff_iff.2 differs]

/--
A pipeline of two lists of transforms fails where the first list does or, on the
text that the first list leaves, the second; it fails at the same text.
Otherwise it leaves the second text and the names of both lists, and its flag
compares the last text with the first one.

It fails exactly if the transforms before some transform pass and leave that one
a text that does not parse.  Where it succeeds each transform is listed as
filtered, is listed as applied, or ran and left its text as it was.
-/
theorem pipelines_compose (dialect : Dialect) (options : TransformOptions) (path : String)
    (first second : List Transform) (source : List Char) :
    let opening := (run dialect options path first source).output
    let closing := fun text => (run dialect options path second text).output
    let whole := (run dialect options path (first ++ second) source).output
    (∀ failure, whole = .error failure ↔ opening = .error failure ∨
      ∃ before, opening = .ok before ∧ closing before.text = .error failure) ∧
    (∀ output, whole = .ok output ↔
      ∃ before after, opening = .ok before ∧ closing before.text = .ok after ∧
        output.text = after.text ∧ output.applied = before.applied ++ after.applied ∧
        output.filtered = before.filtered ++ after.filtered ∧
        (output.isChanged = true ↔ output.text ≠ source)) ∧
    (∀ failure, whole = .error failure ↔
      ∃ before transform behind fates, first ++ second = before ++ transform :: behind ∧
        Passes dialect options path before source fates failure.text ∧
        admits options path transform = true ∧
        parseProgram dialect failure.text = none) ∧
    (∀ output, whole = .ok output →
      ∃ fates, Passes dialect options path (first ++ second) source fates output.text ∧
        output.applied = namesWith .applied (first ++ second) fates ∧
        output.filtered = namesWith .filtered (first ++ second) fates) := by
  intro opening closing whole
  have isWhole : whole = opening.bind fun before =>
      (closing before.text).map (join source before) := output_append first second source
  refine ⟨?_, ?_, fun failure => output_eq_error_iff, ?_⟩
  · intro failure
    rw [isWhole]
    cases opening with
    | error other => simp [Except.bind]
    | ok before =>
      change (closing before.text).map _ = _ ↔ _
      rw [map_eq_error_iff]
      simp
  · intro output
    rw [isWhole]
    cases opening with
    | error failure => simp [Except.bind]
    | ok before =>
      change (closing before.text).map _ = _ ↔ _
      rw [map_eq_ok_iff]
      constructor
      · rintro ⟨after, isAfter, same⟩
        exact ⟨before, after, rfl, isAfter, eq_join_iff.1 same.symm⟩
      · rintro ⟨_, after, same, isAfter, fields⟩
        cases same
        exact ⟨after, isAfter, (eq_join_iff.2 fields).symm⟩
  · intro output isOutput
    rcases output_eq_ok_iff.1 isOutput with ⟨fates, text, passes, rfl⟩
    exact ⟨fates, passes, rfl, rfl⟩

end Pipeline

end Codemod
