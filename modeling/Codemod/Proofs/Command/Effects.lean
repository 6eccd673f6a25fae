import Codemod.Command.Run
import Codemod.Proofs.Command.Turns

/-!
# What a run touches and reports

The work on the files comes to the same for every schedule as far as `Completes`
says: only files that are reported as changed are written, and only if writing is
asked for.  The counters that the files share end as the numbers of reports.

The rest of the run is decided before and after the files: by the
configuration and the names that are asked for, without a look at any source
file, and by the counters.
-/

namespace Codemod.Command

/-! ## Counting reports -/

/-- The status that an entry of a report gives. -/
def statusText? (entry : Json) : Option String :=
  match entry.field? "status" with
  | some (.string text) => some text
  | _ => none

/-- The number of entries with a status. -/
def countStatus (status : String) (entries : List Json) : Nat :=
  entries.countP fun entry => statusText? entry == some status

/--
The counters of a document are the numbers of its entries with each status,
and together they count every entry.
-/
def Tallies (document : Json) (total : Nat) : Prop :=
  ∃ entries, document.field? "files" = some (.array entries) ∧ entries.length = total ∧
    document.field? "changed" = some (.nat (countStatus "changed" entries)) ∧
    document.field? "unchanged" = some (.nat (countStatus "unchanged" entries)) ∧
    document.field? "errored" = some (.nat (countStatus "error" entries)) ∧
    countStatus "changed" entries + countStatus "unchanged" entries +
      countStatus "error" entries = total

/-- The text of a status in a document. -/
def FileStatus.text : FileStatus → String
  | .changed _ => "changed"
  | .unchanged => "unchanged"
  | .failed _ => "error"

theorem statusText?_encode (report : FileReport) :
    statusText? report.encode = some report.status.text := by
  rcases report with ⟨path, applied | _ | message⟩
  · cases applied <;> rfl
  · rfl
  · rfl

theorem countP_eq_countStatus {test : FileReport → Bool} {status : String}
    (agrees : ∀ report, test report = (report.status.text == status))
    (reports : List FileReport) :
    reports.countP test = countStatus status (reports.map (·.encode)) := by
  rw [countStatus, List.countP_map]
  congr 1
  funext report
  rw [agrees, Function.comp_apply, statusText?_encode]
  rfl

theorem RunReport.tallies {report : RunReport} (counts : report.IsCountOf report.files) :
    Tallies report.encode report.files.length := by
  have changed_eq : report.changed = countStatus "changed" (report.files.map (·.encode)) := by
    rw [counts.changed]
    apply countP_eq_countStatus
    rintro ⟨path, applied | _ | message⟩ <;> rfl
  have unchanged_eq : report.unchanged = countStatus "unchanged" (report.files.map (·.encode)) := by
    rw [counts.unchanged]
    apply countP_eq_countStatus
    rintro ⟨path, applied | _ | message⟩ <;> rfl
  have errored_eq : report.errored = countStatus "error" (report.files.map (·.encode)) := by
    rw [counts.errored]
    apply countP_eq_countStatus
    rintro ⟨path, applied | _ | message⟩ <;> rfl
  refine ⟨report.files.map (·.encode), rfl, List.length_map _, ?_⟩
  rw [← changed_eq, ← unchanged_eq, ← errored_eq]
  exact ⟨rfl, rfl, rfl, counts.add⟩

theorem RunReport.isFailure_iff {report : RunReport} (counts : report.IsCountOf report.files) :
    report.isFailure = true ↔ (∃ file ∈ report.files, file.isFailed = true) ∨
      report.isChecking = true ∧ ∃ file ∈ report.files, file.isChanged = true := by
  simp only [isFailure, counts.errored, counts.changed, Bool.or_eq_true, Bool.and_eq_true,
    decide_eq_true_eq, gt_iff_lt, List.countP_pos_iff]

/-- When the work is done, the counters are the numbers of reports. -/
theorem isCountOf_complete (assignment : Assignment) (tree : FileTree) (files : List String)
    (schedule : List Nat) :
    (Work.complete assignment tree files schedule).counters.IsCountOf
      (Work.complete assignment tree files schedule).reports := by
  have counted : (Work.complete assignment tree files schedule).jobs.filterMap Job.counted? =
      (Work.complete assignment tree files schedule).reports := by
    rw [jobs_complete, List.filterMap_map]
    exact List.filterMap_some
  rw [← counted]
  exact ((tallied_start assignment tree files).after (turns schedule files.length)).counters

/-- The lines that are shown are those of the reports, in the order of the turns. -/
theorem shown_complete {assignment : Assignment} (isShowing : assignment.isShowing = true)
    (tree : FileTree) (files : List String) (schedule : List Nat) :
    (Work.complete assignment tree files schedule).shown.Perm
      ((Work.complete assignment tree files schedule).reports.filterMap fun report =>
        report.line? assignment.isWriting) := by
  have shown := ((tallied_start assignment tree files).after (turns schedule files.length)).shown
  have line_eq : assignment.line? = fun report => report.line? assignment.isWriting := by
    funext report
    rw [Assignment.line?, if_pos isShowing]
  rw [line_eq] at shown
  exact shown

/-! ## Before the files -/

section Requests

variable (surroundings : Surroundings) (arguments : RunArguments)

/-- A configuration is asked for that cannot be used. -/
def Misconfigured : Prop :=
  ∃ path fault, arguments.config = some path ∧ readConfig surroundings path = .error fault

/-- A name is asked for that no transform has. -/
def AsksUnknown : Prop :=
  ∃ loaded name, loadConfig surroundings arguments.config = .ok loaded ∧
    name ∈ requested arguments loaded.config ∧ Registry.builtin.find? name = none

variable {surroundings arguments}

/-- Only a configuration that is asked for can fail to load. -/
theorem misconfigured_iff : Misconfigured surroundings arguments ↔
    ∃ fault, loadConfig surroundings arguments.config = .error fault := by
  constructor
  · rintro ⟨path, fault, isAsked, isUnusable⟩
    exact ⟨fault, by rw [isAsked, loadConfig, isUnusable]; rfl⟩
  · rintro ⟨fault, isError⟩
    cases isAsked : arguments.config with
    | none =>
      rw [isAsked, loadConfig] at isError
      split at isError
      · split at isError <;> cases isError
      · cases isError
    | some path =>
      rw [isAsked, loadConfig] at isError
      cases isUsable : readConfig surroundings path with
      | ok config => rw [isUsable] at isError; cases isError
      | error fault => exact ⟨path, fault, isAsked, isUsable⟩

end Requests

theorem ordered_eq_error_iff (registry : Registry) (names : List String) :
    (∃ name, registry.ordered names = .error name) ↔
      ∃ name ∈ names, registry.find? name = none := by
  rw [Registry.ordered]
  cases isFound : names.find? fun name => (registry.find? name).isNone with
  | some name =>
    refine ⟨fun _ => ⟨name, List.mem_of_find?_eq_some isFound, ?_⟩, fun _ => ⟨name, rfl⟩⟩
    simpa using List.find?_some isFound
  | none =>
    rw [List.find?_eq_none] at isFound
    constructor
    · rintro ⟨name, isError⟩
      cases isError
    · rintro ⟨name, isName, isUnknown⟩
      exact absurd (by simp [isUnknown]) (isFound name isName)

/-! ## The whole run -/

section Run

variable {wording : Wording} {surroundings : Surroundings} {schedule : List Nat}
  {arguments : RunArguments}

theorem run_of_unloaded {fault : LoadError}
    (isError : loadConfig surroundings arguments.config = .error fault) :
    run wording surroundings schedule arguments =
      failure surroundings ["Error: " ++ fault.message wording] := by
  rw [run, isError]

theorem run_of_unknown {loaded : LoadedConfig} {name : String}
    (isLoaded : loadConfig surroundings arguments.config = .ok loaded)
    (isUnknown : Registry.builtin.ordered (requested arguments loaded.config) = .error name) :
    run wording surroundings schedule arguments =
      failure surroundings (loaded.warning wording ++ ["Error: Unknown codemod: " ++ name]) := by
  simp only [run, isLoaded, isUnknown]

/--
What is shown of a run: the report as a document, or the lines about its files, in
some order, and the summary at the end.
-/
def Shows (format : OutputFormat) (report : RunReport) (outcome : Outcome) : Prop :=
  match format with
  | .json => outcome.stdout = Json.pretty report.encode ++ "\n"
  | .text => ∃ lines : List String,
      lines.Perm (report.files.filterMap fun file => file.line? report.isWriting) ∧
      lines ++ report.summary <:+ outcome.messages

/-- Without files there is nothing to do. -/
theorem complete_nil (assignment : Assignment) (tree : FileTree) (schedule : List Nat) :
    Work.complete assignment tree [] schedule = .start tree [] := by
  rw [Work.complete]
  induction turns schedule ([] : List String).length with
  | nil => rfl
  | cons turn rest ih => exact ih

/-- A run with a configuration and known names works on its files and reports on them. -/
theorem exists_completes_run (wording : Wording) (schedule : List Nat)
    {loaded : LoadedConfig} {transforms : List Transform}
    (isLoaded : loadConfig surroundings arguments.config = .ok loaded)
    (isKnown : Registry.builtin.ordered (requested arguments loaded.config) = .ok transforms) :
    ∃ report : RunReport, report.isChecking = arguments.isChecking ∧
      report.IsCountOf report.files ∧
      Completes (assigned wording surroundings arguments loaded.config transforms) surroundings.tree
        (Files.collect surroundings.tree surroundings.directory arguments.patterns) schedule
        report.files (run wording surroundings schedule arguments).tree ∧
      (run wording surroundings schedule arguments).exit = (if report.isFailure then 1 else 0) ∧
      (report.files ≠ [] →
        Shows arguments.format report (run wording surroundings schedule arguments)) := by
  generalize isAssigned :
    assigned wording surroundings arguments loaded.config transforms = assignment
  generalize isFiles :
    Files.collect surroundings.tree surroundings.directory arguments.patterns = files
  have completes := completes_complete assignment surroundings.tree files schedule
  have counts := isCountOf_complete assignment surroundings.tree files schedule
  generalize isWork : Work.complete assignment surroundings.tree files schedule = work
    at completes counts
  refine ⟨⟨work.counters, work.reports, assignment.isWriting, arguments.isChecking⟩, rfl, counts,
    ?_⟩
  simp only [run, isLoaded, isKnown, isAssigned, isFiles]
  split
  next isEmpty =>
    rw [List.isEmpty_iff] at isEmpty
    rw [isEmpty, complete_nil] at isWork
    subst isWork
    exact ⟨completes, by simp [Work.start, Counters.zero, RunReport.isFailure],
      fun isSome => absurd rfl isSome⟩
  next =>
    rw [isWork]
    cases isFormat : arguments.format with
    | json => exact ⟨completes, rfl, fun _ => rfl⟩
    | text =>
      refine ⟨completes, rfl, fun _ => ⟨work.shown, ?_, ?_⟩⟩
      · have isShowing : assignment.isShowing = true := by
          rw [← isAssigned, assigned, isFormat]
          rfl
        rw [← isWork]
        exact shown_complete isShowing _ _ _
      · simp only [List.append_assoc, List.cons_append]
        exact (List.suffix_cons _ _).trans (List.suffix_append _ _)

/--
A run is turned down if its configuration cannot be used or a name is unknown,
and otherwise has a configuration and transforms.
-/
theorem turnedDown_or_ready (wording : Wording) (surroundings : Surroundings)
    (arguments : RunArguments) :
    ((Misconfigured surroundings arguments ∨ AsksUnknown surroundings arguments) ∧
      ∃ lines, ∀ tree schedule, loadConfig { surroundings with tree } arguments.config =
          loadConfig surroundings arguments.config →
        run wording { surroundings with tree } schedule arguments =
          failure { surroundings with tree } lines) ∨
    (¬ Misconfigured surroundings arguments ∧ ¬ AsksUnknown surroundings arguments ∧
      ∃ loaded transforms, loadConfig surroundings arguments.config = .ok loaded ∧
        Registry.builtin.ordered (requested arguments loaded.config) = .ok transforms) := by
  cases isLoaded : loadConfig surroundings arguments.config with
  | error fault =>
    left
    constructor
    · exact .inl (misconfigured_iff.2 ⟨fault, isLoaded⟩)
    · exact ⟨["Error: " ++ fault.message wording], fun tree schedule same => run_of_unloaded same⟩
  | ok loaded =>
    have asksUnknown_iff : AsksUnknown surroundings arguments ↔
        ∃ name ∈ requested arguments loaded.config, Registry.builtin.find? name = none := by
      simp only [AsksUnknown, isLoaded, Except.ok.injEq]
      constructor
      · rintro ⟨_, name, rfl, isUnknown⟩
        exact ⟨name, isUnknown⟩
      · rintro ⟨name, isUnknown⟩
        exact ⟨loaded, name, rfl, isUnknown⟩
    rw [← ordered_eq_error_iff] at asksUnknown_iff
    cases isKnown : Registry.builtin.ordered (requested arguments loaded.config) with
    | error name =>
      left
      constructor
      · exact .inr (asksUnknown_iff.2 ⟨name, isKnown⟩)
      · exact ⟨loaded.warning wording ++ ["Error: Unknown codemod: " ++ name],
          fun tree schedule same => run_of_unknown same isKnown⟩
    | ok transforms =>
      right
      refine ⟨?_, ?_, loaded, transforms, rfl, isKnown⟩
      · rw [misconfigured_iff, isLoaded]
        rintro ⟨fault, isError⟩
        cases isError
      · rw [asksUnknown_iff, isKnown]
        rintro ⟨name, isError⟩
        cases isError

end Run

/--
What a run may touch and what it reports, whatever turns its files have.  A content
changes only if writing is asked for and checking is not, and then a report for that
file says so; each file is read, run and written as `Completes` says; the counters
count the reports; the exit status is 1 for the four reasons given.  A run that is
turned down before its files does not depend on them: in any tree in which the
configuration loads in the same way it ends in the same way.
-/
theorem run_touches_and_reports (wording : Wording) (surroundings : Surroundings)
    (schedule : List Nat) (given : List String) (arguments : RunArguments)
    (asked : parseRequest given = some (.run arguments)) :
    ∃ report : RunReport,
      (∀ location,
        (execute wording surroundings schedule given).tree.content? location ≠
          surroundings.tree.content? location →
        arguments.isWriting = true ∧ arguments.isChecking = false ∧
          ∃ file ∈ report.files, file.isChanged = true ∧
            surroundings.tree.locate surroundings.directory file.path = .ok location) ∧
      ((execute wording surroundings schedule given).exit = 1 ↔
        Misconfigured surroundings arguments ∨
        AsksUnknown surroundings arguments ∨
        (∃ file ∈ report.files, file.isFailed = true) ∨
        arguments.isChecking = true ∧ ∃ file ∈ report.files, file.isChanged = true) ∧
      (Misconfigured surroundings arguments ∨ AsksUnknown surroundings arguments →
        report.files = [] ∧
        (execute wording surroundings schedule given).tree = surroundings.tree ∧
        ∀ tree other, loadConfig { surroundings with tree } arguments.config =
            loadConfig surroundings arguments.config →
          execute wording { surroundings with tree } other given =
            { execute wording surroundings schedule given with tree }) ∧
      (¬ Misconfigured surroundings arguments → ¬ AsksUnknown surroundings arguments →
        ∃ loaded transforms files,
          loadConfig surroundings arguments.config = .ok loaded ∧
          Registry.builtin.ordered (requested arguments loaded.config) = .ok transforms ∧
          files = Files.collect surroundings.tree surroundings.directory
            arguments.patterns ∧
          Completes (assigned wording surroundings arguments loaded.config transforms)
            surroundings.tree files schedule report.files
            (execute wording surroundings schedule given).tree ∧
          report.IsCountOf report.files ∧
          report.changed + report.unchanged + report.errored = files.length ∧
          Tallies report.encode files.length ∧
          (files ≠ [] →
            Shows arguments.format report (execute wording surroundings schedule given))) := by
  have execute_eq (surroundings : Surroundings) (schedule : List Nat) :
      execute wording surroundings schedule given =
        run wording surroundings schedule arguments := by
    rw [execute, asked]
    rfl
  simp only [execute_eq]
  rcases turnedDown_or_ready wording surroundings arguments with
    ⟨reason, lines, run_eq⟩ | ⟨configured, known, loaded, transforms, isLoaded, isKnown⟩
  · have own : run wording surroundings schedule arguments = failure surroundings lines :=
      run_eq surroundings.tree schedule rfl
    exists ⟨.zero, [], false, false⟩
    rw [own]
    refine ⟨fun location differs => absurd rfl differs, ?_, ?_, ?_⟩
    · constructor
      · intro _
        exact reason.imp_right .inl
      · intro _
        rfl
    · intro _
      exact ⟨rfl, rfl, run_eq⟩
    · intro configured known
      exact absurd reason (not_or.2 ⟨configured, known⟩)
  · obtain ⟨report, isChecking_eq, counts, completes, exit_eq, shows⟩ :=
      exists_completes_run wording schedule isLoaded isKnown
    have length_eq := congrArg List.length completes.paths
    rw [List.length_map] at length_eq
    exists report
    refine ⟨?_, ?_, ?_, ?_⟩
    · intro location differs
      obtain ⟨isWriting, file, member, _, output, _, _, isFound, isStatus, _⟩ :=
        completes.left differs
      rw [assigned, Bool.and_eq_true, Bool.not_eq_true'] at isWriting
      refine ⟨isWriting.1, isWriting.2, file, member, ?_, isFound⟩
      rw [FileReport.isChanged, isStatus]
    · rw [exit_eq, ← isChecking_eq, ← RunReport.isFailure_iff counts]
      simp [configured, known]
    · intro reason
      exact absurd reason (not_or.2 ⟨configured, known⟩)
    · intro _ _
      refine ⟨loaded, transforms, _, isLoaded, isKnown, rfl, completes, counts, ?_, ?_, ?_⟩
      · rw [counts.add, length_eq]
      · rw [← length_eq]
        exact RunReport.tallies counts
      · intro isSome
        apply shows
        intro isEmpty
        rw [isEmpty] at length_eq
        exact isSome (List.length_eq_zero_iff.1 length_eq.symm)

/-- A directory with a file that can be changed, one that does not parse and one that is no text. -/
def mixedSurroundings : Surroundings where
  tree := {
    files := [(["a.js"], .text "f(function () { return 1; });".toList),
      (["b.js"], .text "f(".toList), (["c.js"], .bytes [])]
    directories := [] }
  directory := []

/-- The command line asks for all files, and for changed ones to be written. -/
def mixedRequest : List String :=
  ["run", "-w", "-m", "function-to-arrow", "-f", "json", "a.js", "b.js", "c.js"]

def mixedArguments : RunArguments :=
  ⟨["a.js", "b.js", "c.js"], ["function-to-arrow"], true, false, none, .json⟩

/-- A run over the files, with turns in a mixed order. -/
def mixedOutcome : Outcome :=
  execute ⟨"", fun _ => ""⟩ mixedSurroundings [2, 0, 1, 0, 2] mixedRequest

/-- One file is rewritten, the others are kept, and the report that is printed says so. -/
theorem run_touches_and_reports_mixed :
    mixedOutcome.exit = 1 ∧
    mixedOutcome.tree.content? ["a.js"] = some (.text "f(() => 1);".toList) ∧
    mixedOutcome.tree.content? ["b.js"] = some (.text "f(".toList) ∧
    mixedOutcome.tree.content? ["c.js"] = some (.bytes []) ∧
    ∃ report : RunReport, mixedOutcome.stdout = Json.pretty report.encode ++ "\n" ∧
      report.changed + report.unchanged + report.errored = 3 ∧
      (∃ file ∈ report.files, file.isChanged = true ∧
        mixedSurroundings.tree.locate [] file.path = .ok ["a.js"]) ∧
      ∃ file ∈ report.files, file.isFailed = true := by
  have asked : parseRequest mixedRequest = some (.run mixedArguments) := by decide +kernel
  obtain ⟨report, touched, exit_iff, _, ready⟩ :=
    run_touches_and_reports ⟨"", fun _ => ""⟩ mixedSurroundings [2, 0, 1, 0, 2] _ _ asked
  have configured : ¬ Misconfigured mixedSurroundings mixedArguments := by
    rintro ⟨_, _, isGiven, _⟩
    cases isGiven
  have known : ¬ AsksUnknown mixedSurroundings mixedArguments := by
    rintro ⟨_, name, _, isName, isUnknown⟩
    rw [List.mem_singleton.1 isName] at isUnknown
    cases isUnknown
  obtain ⟨_, _, files, _, _, isFiles, _, _, total, _, shows⟩ := ready configured known
  have length_eq : files.length = 3 := by
    rw [isFiles]
    decide +kernel
  have exits : mixedOutcome.exit = 1 := by decide +kernel
  have written : mixedOutcome.tree.content? ["a.js"] =
      some (.text "f(() => 1);".toList) := by decide +kernel
  refine ⟨exits, written, by decide +kernel, by decide +kernel, report, ?_, ?_, ?_, ?_⟩
  · refine shows ?_
    rintro rfl
    cases length_eq
  · rw [total, length_eq]
  · refine (touched ["a.js"] ?_).2.2
    exact fun same => absurd (written.symm.trans same) (by decide +kernel)
  · rcases exit_iff.1 exits with isUnusable | isUnknown | failed | ⟨isChecking, _⟩
    · exact absurd isUnusable configured
    · exact absurd isUnknown known
    · exact failed
    · cases isChecking

end Codemod.Command
