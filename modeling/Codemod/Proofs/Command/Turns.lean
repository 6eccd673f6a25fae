import Codemod.Command.Work
import Codemod.Proofs.Pipeline.Composition
import Mathlib.Data.List.Induction

/-!
# Turns

The files of a run have their turns in any order.  `Moves` says what a turn can do:
the work on one file comes one stage further, and the tree, the counters or what is
shown change with it.  Everything else is kept by every turn, and by any number of
turns.  Contents change, but no entry of the tree comes or goes, so a path leads to
the same place throughout a run.  What a file was found to be is said of the tree
at a moment of the run, when the file was read; another file at the same place may
have been written before.
-/

namespace Codemod

/-! ## Writing -/

namespace FileTree

variable {tree other : FileTree} {location : Location}

/-- Two trees with the same entries, whatever their files hold. -/
structure SameEntries (tree other : FileTree) : Prop where
  files : tree.files.map (·.1) = other.files.map (·.1)
  directories : tree.directories = other.directories

theorem SameEntries.refl (tree : FileTree) : tree.SameEntries tree :=
  ⟨rfl, rfl⟩

theorem SameEntries.trans {third : FileTree} (first : tree.SameEntries other)
    (second : other.SameEntries third) : tree.SameEntries third :=
  ⟨first.files.trans second.files, first.directories.trans second.directories⟩

theorem isFile_eq (tree : FileTree) (location : Location) :
    tree.isFile location = (tree.files.map (·.1)).contains location := by
  rw [isFile, content?, Option.isSome_map, List.isSome_find?, List.contains_eq_any_beq,
    List.any_map]
  simp only [Function.comp_def, BEq.comm]

theorem SameEntries.isFile_eq (same : tree.SameEntries other) (location : Location) :
    tree.isFile location = other.isFile location := by
  rw [FileTree.isFile_eq, FileTree.isFile_eq, same.files]

theorem SameEntries.isDirectory_eq (same : tree.SameEntries other) (location : Location) :
    tree.isDirectory location = other.isDirectory location := by
  rw [isDirectory, isDirectory, given, given, same.files, same.directories]

theorem SameEntries.follow_eq (same : tree.SameEntries other) (location : Location)
    (parts : List String) : tree.follow location parts = other.follow location parts := by
  induction parts generalizing location with
  | nil => rfl
  | cons part rest ih =>
    simp only [follow, same.isFile_eq, same.isDirectory_eq, ih]

/-- A path leads to the same place in trees with the same entries. -/
theorem SameEntries.locate_eq (same : tree.SameEntries other) (directory : Location)
    (path : String) : tree.locate directory path = other.locate directory path := by
  have sameEntry (location : Location) : tree.hasEntry location = other.hasEntry location := by
    rw [hasEntry, hasEntry, same.isFile_eq, same.isDirectory_eq]
  simp only [locate, sameEntry, same.follow_eq]

theorem sameEntries_write (tree : FileTree) (location : Location) (characters : List Char) :
    tree.SameEntries (tree.write location characters) := by
  constructor
  · rw [write, List.map_map]
    apply List.map_congr_left
    intro file _
    simp only [Function.comp_apply]
    split <;> rfl
  · rfl

theorem content?_write (tree : FileTree) (location : Location) (characters : List Char) :
    (tree.write location characters).content? location =
      (tree.content? location).map fun _ => .text characters := by
  rw [content?, content?, write]
  induction tree.files with
  | nil => rfl
  | cons file rest ih =>
    rw [List.map_cons, List.find?_cons, List.find?_cons]
    cases isHere : file.1 == location with
    | true => simp only [if_true, isHere, Option.map_some]
    | false => simpa only [Bool.false_eq_true, if_false, isHere] using ih

/-- Writing a file leaves every other file as it is. -/
theorem content?_write_of_ne (tree : FileTree) {place : Location}
    (apart : place ≠ location) (characters : List Char) :
    (tree.write location characters).content? place = tree.content? place := by
  rw [content?, content?, write]
  induction tree.files with
  | nil => rfl
  | cons file rest ih =>
    rw [List.map_cons, List.find?_cons, List.find?_cons]
    by_cases isWritten : file.1 = location
    · have passed : (file.1 == place) = false := by simp [isWritten, apart.symm]
      have taken : (file.1 == location) = true := by simp [isWritten]
      simp only [taken, if_true, passed]
      exact ih
    · have kept : (file.1 == location) = false := by simp [isWritten]
      simp only [kept, Bool.false_eq_true, if_false]
      split
      · rfl
      · exact ih

end FileTree

namespace Command

/-! ## What becomes of a file -/

section Reading

variable (assignment : Assignment) (tree : FileTree) (path : String)

/-- The transforms change the text at the place of a path. -/
structure Transforms (location : Location) (output : PipelineOutput) : Prop where
  isFound : tree.locate assignment.directory path = .ok location
  differs : ∃ source, tree.read assignment.directory path = .ok source ∧
    (Pipeline.run (Dialect.ofPath path) assignment.options
      (Path.relativeTo assignment.directory path) assignment.transforms source).output =
        .ok output ∧
    output.text ≠ source

/-- What becomes of the file at a path. -/
inductive Handles : FileStatus → Prop
  | unread {cause : FileError} (isUnread : tree.read assignment.directory path = .error cause) :
      Handles (.failed ("failed to read file: " ++ cause.message))
  | unparsed {source : List Char} {failure : ParseFailure}
      (isRead : tree.read assignment.directory path = .ok source)
      (isUnparsed : (Pipeline.run (Dialect.ofPath path) assignment.options
        (Path.relativeTo assignment.directory path) assignment.transforms source).output =
          .error failure) :
      Handles (.failed ("Failed to parse source: " ++ assignment.wording.diagnostics))
  | unchanged {source : List Char} {output : PipelineOutput}
      (isRead : tree.read assignment.directory path = .ok source)
      (isRun : (Pipeline.run (Dialect.ofPath path) assignment.options
        (Path.relativeTo assignment.directory path) assignment.transforms source).output =
          .ok output)
      (same : output.text = source) : Handles .unchanged
  | changed {location : Location} {output : PipelineOutput}
      (transforms : Transforms assignment tree path location output) :
      Handles (.changed output.applied)

/-- Reading a file settles what becomes of it, unless it has to be written. -/
theorem examine_cases :
    (∃ status, assignment.examine tree path = .settled status ∧
      Handles assignment tree path status) ∨
    ∃ location output, assignment.examine tree path = .transformed location output ∧
      assignment.isWriting = true ∧ Transforms assignment tree path location output := by
  cases isFound : tree.locate assignment.directory path with
  | error cause =>
    have isUnread : tree.read assignment.directory path = .error cause := by
      rw [FileTree.read, isFound]
    exact .inl ⟨_, by simp only [Assignment.examine, isFound], .unread isUnread⟩
  | ok location =>
    have read_eq : tree.read assignment.directory path = tree.textAt location := by
      rw [FileTree.read, isFound]
    cases isText : tree.textAt location with
    | error cause =>
      exact .inl ⟨_, by simp only [Assignment.examine, isFound, isText],
        .unread (read_eq.trans isText)⟩
    | ok source =>
      have isRead := read_eq.trans isText
      cases isRun : (Pipeline.run (Dialect.ofPath path) assignment.options
          (Path.relativeTo assignment.directory path) assignment.transforms source).output with
      | error failure =>
        exact .inl ⟨_, by simp only [Assignment.examine, isFound, isText, isRun],
          .unparsed isRead isRun⟩
      | ok output =>
        simp only [Assignment.examine, isFound, isText, isRun, Pipeline.isChanged_eq isRun]
        by_cases same : output.text = source
        · exact .inl ⟨.unchanged, by simp [same], .unchanged isRead isRun same⟩
        have transforms : Transforms assignment tree path location output :=
          ⟨isFound, source, isRead, isRun, same⟩
        cases isWriting : assignment.isWriting with
        | true => exact .inr ⟨location, output, by simp [same], rfl, transforms⟩
        | false => exact .inl ⟨_, by simp [same], .changed transforms⟩

variable {assignment tree path}

/-- What becomes of a file is decided by what stands at its place. -/
theorem Handles.congr {other : FileTree} {status : FileStatus}
    (handles : Handles assignment tree path status) (entries : other.SameEntries tree)
    (content : ∀ location, tree.locate assignment.directory path = .ok location →
      tree.content? location = other.content? location) :
    Handles assignment other path status := by
  have locate_eq := entries.locate_eq assignment.directory path
  have read_eq : other.read assignment.directory path =
      tree.read assignment.directory path := by
    rw [FileTree.read, FileTree.read, locate_eq]
    cases isFound : tree.locate assignment.directory path with
    | error cause => rfl
    | ok location => simp only [FileTree.textAt, content location isFound]
  cases handles with
  | unread isUnread => exact .unread (read_eq.trans isUnread)
  | unparsed isRead isUnparsed => exact .unparsed (read_eq.trans isRead) isUnparsed
  | unchanged isRead isRun same => exact .unchanged (read_eq.trans isRead) isRun same
  | changed transforms =>
    obtain ⟨isFound, source, isRead, isRun⟩ := transforms
    exact .changed ⟨locate_eq.trans isFound, source, read_eq.trans isRead, isRun⟩

end Reading

/-! ## One turn -/

namespace Stage

/-- What is known of a file that has been read. -/
def status? : Stage → Option FileStatus
  | waiting => none
  | transformed _ output => some (.changed output.applied)
  | emptied _ output => some (.changed output.applied)
  | settled status => some status
  | counted status => some status
  | finished status => some status

/-- The place that is going to be written, and the output. -/
def target? : Stage → Option (Location × PipelineOutput)
  | transformed location output => some (location, output)
  | emptied location output => some (location, output)
  | _ => none

theorem status?_of_target? {stage : Stage} {location : Location} {output : PipelineOutput}
    (isTarget : stage.target? = some (location, output)) :
    stage.status? = some (.changed output.applied) := by
  cases stage with
  | transformed place result =>
    cases isTarget
    rfl
  | emptied place result =>
    cases isTarget
    rfl
  | _ => cases isTarget

/-- The number of turns that are left. -/
def left : Stage → Nat
  | waiting => 5
  | transformed _ _ => 4
  | emptied _ _ => 3
  | settled _ => 2
  | counted _ => 1
  | finished _ => 0

theorem left_le (stage : Stage) : stage.left ≤ 5 := by
  cases stage <;> simp [left]

theorem eq_finished_of_left {stage : Stage} (isLast : stage.left = 0) :
    ∃ status, stage = .finished status := by
  cases stage with
  | finished status => exact ⟨status, rfl⟩
  | _ => cases isLast

end Stage

/-- What a turn can do to the work on a file, and what the files share after it. -/
inductive Moves (assignment : Assignment) (work : Work) (path : String) :
    Stage → Stage → Work → Prop
  | examine : Moves assignment work path .waiting (assignment.examine work.tree path) work
  | empty {location : Location} {output : PipelineOutput} :
      Moves assignment work path (.transformed location output) (.emptied location output)
        { work with tree := work.tree.write location [] }
  | write {location : Location} {output : PipelineOutput} :
      Moves assignment work path (.emptied location output) (.settled (.changed output.applied))
        { work with tree := work.tree.write location output.text }
  | count {status : FileStatus} :
      Moves assignment work path (.settled status) (.counted status)
        { work with counters := work.counters.count status }
  | announce {status : FileStatus} :
      Moves assignment work path (.counted status) (.finished status)
        { work with shown := work.shown ++ if assignment.isShowing then
          (FileReport.line? ⟨path, status⟩ assignment.isWriting).toList else [] }

namespace Work

variable {assignment : Assignment} {work : Work} {index : Nat}

/-- A turn is over before it begins, or it moves the work on one file. -/
theorem turn_cases (assignment : Assignment) (work : Work) (index : Nat) :
    work.turn assignment index = work ∧
      (∀ job, work.jobs[index]? = some job → job.stage.left = 0) ∨
    ∃ before job after stage shared, work.jobs = before ++ job :: after ∧
      before.length = index ∧ Moves assignment work job.path job.stage stage shared ∧
      work.turn assignment index =
        { shared with jobs := before ++ { job with stage } :: after } := by
  cases isJob : work.jobs[index]? with
  | none => exact .inl ⟨by simp only [turn, isJob], nofun⟩
  | some job =>
    obtain ⟨inside, isHere⟩ := List.getElem?_eq_some_iff.1 isJob
    have jobs_eq : work.jobs = work.jobs.take index ++ job :: work.jobs.drop (index + 1) := by
      rw [← isHere, List.getElem_cons_drop, List.take_append_drop]
    have moved : (∃ status, job.stage = .finished status) ∧
          work.turn assignment index = work ∨
        ∃ stage shared, Moves assignment work job.path job.stage stage shared ∧
          work.turn assignment index =
            { shared with jobs := work.jobs.set index { job with stage } } := by
      simp only [turn, isJob]
      cases job.stage with
      | waiting => exact .inr ⟨_, _, .examine, rfl⟩
      | transformed location output => exact .inr ⟨_, _, .empty, rfl⟩
      | emptied location output => exact .inr ⟨_, _, .write, rfl⟩
      | settled status => exact .inr ⟨_, _, .count, rfl⟩
      | counted status => exact .inr ⟨_, _, .announce, rfl⟩
      | finished status => exact .inl ⟨⟨status, rfl⟩, rfl⟩
    rcases moved with ⟨⟨status, isLast⟩, same⟩ | ⟨stage, shared, moves, turn_eq⟩
    · refine .inl ⟨same, fun other isOther => ?_⟩
      rw [← Option.some.inj isOther, isLast]
      rfl
    · rw [List.set_eq_take_append_cons_drop, if_pos inside] at turn_eq
      exact .inr ⟨_, job, _, stage, shared, jobs_eq, by simp [Nat.le_of_lt inside], moves, turn_eq⟩

end Work

namespace Moves

variable {assignment : Assignment} {work shared : Work} {path : String} {stage next : Stage}

/-- What is known of a file stays known. -/
theorem status? (moves : Moves assignment work path stage next shared) {status : FileStatus}
    (isKnown : stage.status? = some status) : next.status? = some status := by
  cases moves with
  | examine => cases isKnown
  | _ => exact isKnown

theorem left_lt (moves : Moves assignment work path stage next shared) :
    next.left < stage.left := by
  cases moves with
  | examine =>
    rcases examine_cases assignment work.tree path with ⟨_, isNext, _⟩ | ⟨_, _, isNext, _⟩ <;>
      simp [isNext, Stage.left]
  | _ => simp [Stage.left]

theorem sameEntries (moves : Moves assignment work path stage next shared) :
    work.tree.SameEntries shared.tree := by
  cases moves with
  | empty => exact FileTree.sameEntries_write _ _ _
  | write => exact FileTree.sameEntries_write _ _ _
  | _ => exact .refl work.tree

/-- Only the place that is to be written changes: it is emptied, or holds the output. -/
theorem exists_target (moves : Moves assignment work path stage next shared) {place : Location}
    (differs : shared.tree.content? place ≠ work.tree.content? place) :
    ∃ output, stage.target? = some (place, output) ∧
      (next = .emptied place output ∨
        shared.tree.content? place = some (.text output.text)) := by
  cases moves with
  | @empty location output =>
    by_cases isPlace : place = location
    · exact ⟨output, isPlace ▸ rfl, .inl (isPlace ▸ rfl)⟩
    · exact absurd (work.tree.content?_write_of_ne isPlace []) differs
  | @write location output =>
    by_cases isPlace : place = location
    · refine ⟨output, isPlace ▸ rfl, .inr ?_⟩
      simp only [isPlace, FileTree.content?_write] at differs ⊢
      cases isHeld : work.tree.content? location with
      | none => simp [isHeld] at differs
      | some content => rfl
    · exact absurd (work.tree.content?_write_of_ne isPlace output.text) differs
  | _ => exact absurd rfl differs

end Moves

/-! ## All turns -/

section Turns

variable (assignment : Assignment) (begun : Work)

/-- No other file of a list is at the place of the file at a path. -/
def StandsAlone (path : String) : Prop :=
  ∀ before after, begun.jobs.map Job.path = before ++ path :: after →
    ∀ other ∈ before ++ after, ∀ location,
      begun.tree.locate assignment.directory other = .ok location →
      begun.tree.locate assignment.directory path ≠ .ok location

/-- What is true of the work at every moment, given the trees that were seen so far. -/
structure Kept (seen : FileTree → Prop) (work : Work) : Prop where
  entries : begun.tree.SameEntries work.tree
  paths : work.jobs.map Job.path = begun.jobs.map Job.path
  handled : ∀ job ∈ work.jobs, ∀ status, job.stage.status? = some status →
    ∃ tree, seen tree ∧ Handles assignment tree job.path status
  /-- A file that shares its place with no other is found as it was before the run. -/
  alone : ∀ job ∈ work.jobs, StandsAlone assignment begun job.path →
    ∀ status, job.stage.status? = some status → Handles assignment begun.tree job.path status
  aimed : ∀ job ∈ work.jobs, ∀ location output, job.stage.target? = some (location, output) →
    assignment.isWriting = true ∧
      begun.tree.locate assignment.directory job.path = .ok location ∧
      ∃ tree, seen tree ∧ Transforms assignment tree job.path location output
  /-- A content that has changed is an output, or is going to be one. -/
  contents : ∀ location, work.tree.content? location ≠ begun.tree.content? location →
    assignment.isWriting = true ∧ ∃ job ∈ work.jobs, ∃ tree output, seen tree ∧
      Transforms assignment tree job.path location output ∧
      begun.tree.locate assignment.directory job.path = .ok location ∧
      job.stage.status? = some (.changed output.applied) ∧
      (job.stage = .emptied location output ∨
        work.tree.content? location = some (.text output.text))

variable {assignment begun} {seen : FileTree → Prop} {work : Work}

theorem Kept.mono {later : FileTree → Prop} (kept : Kept assignment begun seen work)
    (isLater : ∀ tree, seen tree → later tree) : Kept assignment begun later work where
  entries := kept.entries
  paths := kept.paths
  alone := kept.alone
  handled job member status isKnown := by
    obtain ⟨tree, isSeen, handles⟩ := kept.handled job member status isKnown
    exact ⟨tree, isLater tree isSeen, handles⟩
  aimed job member location output isTarget := by
    obtain ⟨writes, isFound, tree, isSeen, transforms⟩ :=
      kept.aimed job member location output isTarget
    exact ⟨writes, isFound, tree, isLater tree isSeen, transforms⟩
  contents location differs := by
    obtain ⟨writes, job, member, tree, output, isSeen, rest⟩ := kept.contents location differs
    exact ⟨writes, job, member, tree, output, isLater tree isSeen, rest⟩

/-- At the start every file is waiting and nothing has changed. -/
theorem kept_start (assignment : Assignment) (seen : FileTree → Prop) (tree : FileTree)
    (paths : List String) : Kept assignment (.start tree paths) seen (.start tree paths) := by
  have isWaiting : ∀ job ∈ (Work.start tree paths).jobs, job.stage = .waiting := by
    intro job member
    obtain ⟨path, _, rfl⟩ := List.mem_map.1 member
    rfl
  refine ⟨.refl tree, rfl, ?_, ?_, ?_, fun location differs => absurd rfl differs⟩
  · intro job member status isKnown
    rw [isWaiting job member] at isKnown
    cases isKnown
  · intro job member _ status isKnown
    rw [isWaiting job member] at isKnown
    cases isKnown
  · intro job member location output isTarget
    rw [isWaiting job member] at isTarget
    cases isTarget

/-- A file that is alone at its place finds there what was there before the run. -/
theorem Kept.handles_begun {before after : List Job} {job : Job} {status : FileStatus}
    (kept : Kept assignment begun seen work) (split : work.jobs = before ++ job :: after)
    (isWaiting : job.stage = .waiting) (alone : StandsAlone assignment begun job.path)
    (handles : Handles assignment work.tree job.path status) :
    Handles assignment begun.tree job.path status := by
  refine handles.congr kept.entries fun location isFound => ?_
  refine Classical.byContradiction fun differs => ?_
  obtain ⟨_, other, member, _, output, _, _, isOther, isKnown, _⟩ :=
    kept.contents location differs
  rw [split, List.mem_append, List.mem_cons] at member
  have isBeside : other ∈ before ++ after := by
    rcases member with isBefore | rfl | isAfter
    · exact List.mem_append_left _ isBefore
    · rw [isWaiting] at isKnown
      cases isKnown
    · exact List.mem_append_right _ isAfter
  have paths := kept.paths
  rw [split, List.map_append, List.map_cons] at paths
  refine alone _ _ paths.symm other.path ?_ location isOther
    ((kept.entries.locate_eq _ _).trans isFound)
  rw [← List.map_append]
  exact List.mem_map_of_mem isBeside

/-- Reading a file settles what becomes of it in the present tree. -/
theorem handles_examine {tree : FileTree} {path : String} {status : FileStatus}
    (isKnown : (assignment.examine tree path).status? = some status) :
    Handles assignment tree path status := by
  rcases examine_cases assignment tree path with
    ⟨found, isStage, handles⟩ | ⟨location, output, isStage, _, transforms⟩
  · rw [isStage] at isKnown
    exact Option.some.inj isKnown ▸ handles
  · rw [isStage] at isKnown
    exact Option.some.inj isKnown ▸ .changed transforms

theorem transforms_examine {tree : FileTree} {path : String} {location : Location}
    {output : PipelineOutput}
    (isTarget : (assignment.examine tree path).target? = some (location, output)) :
    assignment.isWriting = true ∧ Transforms assignment tree path location output := by
  rcases examine_cases assignment tree path with
    ⟨found, isStage, _⟩ | ⟨place, result, isStage, writes, transforms⟩
  · rw [isStage] at isTarget
    cases isTarget
  · rw [isStage] at isTarget
    cases isTarget
    exact ⟨writes, transforms⟩

/-- What a turn makes known of a file was known, or the file has just been read. -/
theorem Moves.known_or_read {shared : Work} {path : String} {stage next : Stage}
    (moves : Moves assignment work path stage next shared) :
    (next.status? = stage.status? ∧ ∀ target, next.target? = some target →
      stage.target? = some target) ∨
    stage = .waiting ∧ next = assignment.examine work.tree path := by
  cases moves with
  | examine => exact .inr ⟨rfl, rfl⟩
  | empty => exact .inl ⟨rfl, fun _ => id⟩
  | _ => exact .inl ⟨rfl, nofun⟩

/-- A file that was emptied holds the output after its next turn. -/
theorem Moves.holds_output {shared : Work} {path : String} {stage next : Stage}
    {location : Location} {output : PipelineOutput}
    (moves : Moves assignment work path stage next shared)
    (isEmptied : stage = .emptied location output)
    (isHeld : (shared.tree.content? location).isSome = true) :
    shared.tree.content? location = some (.text output.text) := by
  cases moves with
  | write =>
    cases isEmptied
    simp only [FileTree.content?_write] at isHeld ⊢
    rw [Option.isSome_map] at isHeld
    obtain ⟨content, isContent⟩ := Option.isSome_iff_exists.1 isHeld
    rw [isContent]
    rfl
  | _ => cases isEmptied

/-- Nothing appears where no file was. -/
theorem Kept.isSome_of_differs (kept : Kept assignment begun seen work) {location : Location}
    (differs : work.tree.content? location ≠ begun.tree.content? location) :
    (work.tree.content? location).isSome = true := by
  have isFile_eq := kept.entries.isFile_eq location
  rw [FileTree.isFile, FileTree.isFile] at isFile_eq
  cases isHeld : work.tree.content? location with
  | some content => rfl
  | none =>
    rw [isHeld] at isFile_eq differs
    exact absurd (Option.isSome_eq_false_iff.1 isFile_eq) (by simpa using differs.symm)

/-- A turn keeps what is true of the work, given that the present tree counts as seen. -/
theorem Kept.turn (kept : Kept assignment begun seen work) (isNow : seen work.tree)
    (index : Nat) : Kept assignment begun seen (work.turn assignment index) := by
  rcases work.turn_cases assignment index with
    ⟨same, _⟩ | ⟨before, job, after, stage, shared, split, _, moves, isTurn⟩
  · rwa [same]
  rw [isTurn]
  have isJob : job ∈ work.jobs := by simp [split]
  -- The other files stay as they are, so only the one that has its turn is looked at.
  have others {property : Job → Prop} (each : ∀ job ∈ work.jobs, property job)
      (own : property { job with stage }) :
      ∀ job' ∈ before ++ { job with stage } :: after, property job' := by
    intro other member
    rw [List.mem_append, List.mem_cons] at member
    rcases member with isBefore | rfl | isAfter
    · exact each other (by simp [split, isBefore])
    · exact own
    · exact each other (by simp [split, isAfter])
  refine ⟨kept.entries.trans moves.sameEntries, ?_, others kept.handled ?_, others kept.alone ?_,
    others kept.aimed ?_, ?_⟩
  · rw [← kept.paths, split]
    simp
  · intro status isKnown
    rcases moves.known_or_read with ⟨same, _⟩ | ⟨_, rfl⟩
    · exact kept.handled job isJob status (same ▸ isKnown)
    · exact ⟨work.tree, isNow, handles_examine isKnown⟩
  · intro alone status isKnown
    rcases moves.known_or_read with ⟨same, _⟩ | ⟨isWaiting, rfl⟩
    · exact kept.alone job isJob alone status (same ▸ isKnown)
    · have found : Handles assignment begun.tree job.path status :=
        kept.handles_begun split isWaiting alone (handles_examine isKnown)
      exact found
  · intro location output isTarget
    rcases moves.known_or_read with ⟨_, same⟩ | ⟨_, rfl⟩
    · exact kept.aimed job isJob location output (same _ isTarget)
    · obtain ⟨writes, transforms⟩ := transforms_examine isTarget
      exact ⟨writes, (kept.entries.locate_eq _ _).trans transforms.isFound, work.tree, isNow,
        transforms⟩
  · intro location differs
    by_cases same : shared.tree.content? location = work.tree.content? location
    · -- The content is an older one; the file that it comes from is where it was or further.
      rw [same] at differs ⊢
      obtain ⟨writes, other, member, tree, output, isSeen, transforms, isFound, isKnown, holds⟩ :=
        kept.contents location differs
      rw [split, List.mem_append, List.mem_cons] at member
      rcases member with isBefore | rfl | isAfter
      · exact ⟨writes, other, by simp [isBefore], tree, output, isSeen, transforms, isFound,
          isKnown, holds⟩
      · refine ⟨writes, _, List.mem_append_right _ List.mem_cons_self, tree, output, isSeen,
          transforms, isFound, moves.status? isKnown, .inr (holds.elim (fun isEmptied => ?_) id)⟩
        rw [← same]
        exact moves.holds_output isEmptied (same ▸ kept.isSome_of_differs differs)
      · exact ⟨writes, other, by simp [isAfter], tree, output, isSeen, transforms, isFound,
          isKnown, holds⟩
    · obtain ⟨output, isTarget, holds⟩ := moves.exists_target same
      obtain ⟨writes, isFound, tree, isSeen, transforms⟩ :=
        kept.aimed job isJob location output isTarget
      refine ⟨writes, _, List.mem_append_right _ List.mem_cons_self, tree, output, isSeen,
        transforms, isFound, moves.status? ?_, holds⟩
      exact Stage.status?_of_target? isTarget

/-! ### Moments -/

variable (assignment begun) in
/-- The tree at some moment of a run. -/
def Moment (turns : List Nat) (tree : FileTree) : Prop :=
  ∃ earlier, earlier <+: turns ∧ (begun.after assignment earlier).tree = tree

theorem Work.after_append (first second : List Nat) :
    begun.after assignment (first ++ second) =
      (begun.after assignment first).after assignment second :=
  List.foldl_append

theorem Moment.mono {first second : List Nat} {tree : FileTree}
    (moment : Moment assignment begun first tree) (isPrefix : first <+: second) :
    Moment assignment begun second tree := by
  obtain ⟨earlier, isEarlier, isTree⟩ := moment
  exact ⟨earlier, isEarlier.trans isPrefix, isTree⟩

/-- What is true at the start of a run is kept by all of its turns. -/
theorem kept_after (start : ∀ seen, Kept assignment begun seen begun) (turns : List Nat) :
    Kept assignment begun (Moment assignment begun turns) (begun.after assignment turns) := by
  induction turns using List.reverseRecOn with
  | nil => exact start _
  | append_singleton turns index ih =>
    have isPrefix := List.prefix_append turns [index]
    have kept := ih.mono fun tree moment => moment.mono isPrefix
    rw [Work.after_append]
    exact kept.turn ⟨turns, isPrefix, rfl⟩ index

end Turns

/-! ## Counting and showing -/

/-- The counters are the numbers of reports with each status. -/
structure Counters.IsCountOf (counters : Counters) (reports : List FileReport) : Prop where
  changed : counters.changed = reports.countP FileReport.isChanged
  unchanged : counters.unchanged = reports.countP FileReport.isUnchanged
  errored : counters.errored = reports.countP FileReport.isFailed

theorem Counters.IsCountOf.perm {counters : Counters} {reports others : List FileReport}
    (counts : counters.IsCountOf reports) (perm : reports.Perm others) :
    counters.IsCountOf others where
  changed := counts.changed.trans (perm.countP_eq _)
  unchanged := counts.unchanged.trans (perm.countP_eq _)
  errored := counts.errored.trans (perm.countP_eq _)

theorem Counters.IsCountOf.cons {counters : Counters} {reports : List FileReport}
    (counts : counters.IsCountOf reports) (path : String) (status : FileStatus) :
    (counters.count status).IsCountOf (⟨path, status⟩ :: reports) := by
  obtain ⟨changed, unchanged, errored⟩ := counts
  cases status <;>
    exact ⟨by simp [Counters.count, changed, List.countP_cons, FileReport.isChanged],
      by simp [Counters.count, unchanged, FileReport.isUnchanged],
      by simp [Counters.count, errored, List.countP_cons, FileReport.isFailed]⟩

/-- Every report is counted by exactly one of the counters. -/
theorem Counters.IsCountOf.add {counters : Counters} {reports : List FileReport}
    (counts : counters.IsCountOf reports) :
    counters.changed + counters.unchanged + counters.errored = reports.length := by
  rw [counts.changed, counts.unchanged, counts.errored]
  clear counts
  induction reports with
  | nil => rfl
  | cons report rest ih =>
    simp only [List.countP_cons, List.length_cons]
    rcases report with ⟨path, applied | _ | message⟩ <;>
      simp [FileReport.isChanged, FileReport.isUnchanged, FileReport.isFailed] <;>
      omega

/-- The report on a file whose status has been counted. -/
def Job.counted? (job : Job) : Option FileReport :=
  match job.stage with
  | .counted status => some ⟨job.path, status⟩
  | .finished status => some ⟨job.path, status⟩
  | _ => none

/-- The line that is shown about a file. -/
def Assignment.line? (assignment : Assignment) (report : FileReport) : Option String :=
  if assignment.isShowing then report.line? assignment.isWriting else none

/-- The counters and the lines agree with how far the files have come. -/
structure Tallied (assignment : Assignment) (work : Work) : Prop where
  counters : work.counters.IsCountOf (work.jobs.filterMap Job.counted?)
  shown : work.shown.Perm (work.reports.filterMap assignment.line?)

section Tallies

variable {assignment : Assignment} {work : Work}

theorem tallied_start (assignment : Assignment) (tree : FileTree) (paths : List String) :
    Tallied assignment (.start tree paths) := by
  have noCounted : (Work.start tree paths).jobs.filterMap Job.counted? = [] := by
    simp [Work.start, Job.counted?]
  have noReport : (Work.start tree paths).reports = [] := by
    simp [Work.start, Work.reports, Job.report?]
  refine ⟨?_, ?_⟩
  · rw [noCounted]
    exact ⟨rfl, rfl, rfl⟩
  · rw [noReport]
    exact .nil

/-- Of the files it is counted or reported on only one in a turn. -/
theorem counted?_examine (tree : FileTree) (path : String) :
    Job.counted? ⟨path, assignment.examine tree path⟩ = none ∧
      Job.report? ⟨path, assignment.examine tree path⟩ = none := by
  rcases examine_cases assignment tree path with ⟨_, isStage, _⟩ | ⟨_, _, isStage, _⟩ <;>
    rw [isStage] <;> exact ⟨rfl, rfl⟩

theorem Tallied.turn (tallied : Tallied assignment work) (index : Nat) :
    Tallied assignment (work.turn assignment index) := by
  rcases work.turn_cases assignment index with
    ⟨same, _⟩ | ⟨before, ⟨path, last⟩, after, stage, shared, split, _, moves, isTurn⟩
  · rwa [same]
  rw [isTurn]
  obtain ⟨counters, shown⟩ := tallied
  rw [split, List.filterMap_append, List.filterMap_cons] at counters
  rw [Work.reports, split, List.filterMap_append, List.filterMap_cons] at shown
  refine ⟨?_, ?_⟩
  · rw [List.filterMap_append, List.filterMap_cons]
    cases moves with
    | examine => rwa [(counted?_examine work.tree path).1]
    | empty => exact counters
    | write => exact counters
    | count => exact (counters.cons path _).perm List.perm_middle.symm
    | announce => exact counters
  · rw [Work.reports, List.filterMap_append, List.filterMap_cons]
    cases moves with
    | examine => rwa [(counted?_examine work.tree path).2]
    | empty => exact shown
    | write => exact shown
    | count => exact shown
    | @announce status =>
      have line_eq : (if assignment.isShowing then
          (FileReport.line? ⟨path, status⟩ assignment.isWriting).toList else []) =
            (assignment.line? ⟨path, status⟩).toList := by
        rw [Assignment.line?]
        split <;> rfl
      simp only [Job.report?, line_eq] at shown ⊢
      refine (shown.append_right _).trans ?_
      rw [List.filterMap_append, List.filterMap_append, List.append_assoc]
      refine List.Perm.append_left _ (List.perm_append_comm.trans ?_)
      rw [List.filterMap_cons]
      cases assignment.line? ⟨path, status⟩ <;> exact .refl _

theorem Tallied.after (tallied : Tallied assignment work) (turns : List Nat) :
    Tallied assignment (work.after assignment turns) := by
  induction turns generalizing work with
  | nil => exact tallied
  | cons index rest ih => exact ih (tallied.turn index)

end Tallies

/-! ## The end of the work -/

namespace Work

variable {assignment : Assignment} {work : Work}

/-- The number of turns that are left for a file. -/
def left (work : Work) (index : Nat) : Nat :=
  (work.jobs[index]?.map (·.stage.left)).getD 0

/-- A turn replaces one file by one that has come further. -/
theorem jobs_turn (assignment : Assignment) (work : Work) (index : Nat) :
    (work.turn assignment index = work ∧ work.left index = 0) ∨
    ∃ job stage shared, work.jobs[index]? = some job ∧
      Moves assignment work job.path job.stage stage shared ∧
      (work.turn assignment index).tree = shared.tree ∧
      (work.turn assignment index).jobs = work.jobs.set index { job with stage } := by
  rcases work.turn_cases assignment index with
    ⟨same, isLast⟩ | ⟨before, job, after, stage, shared, split, rfl, moves, isTurn⟩
  · refine .inl ⟨same, ?_⟩
    rw [left]
    cases isJob : work.jobs[index]? with
    | none => rfl
    | some job => exact isLast job isJob
  · exact .inr ⟨job, stage, shared, by simp [split], moves, by rw [isTurn],
      by rw [isTurn]; simp [split]⟩

theorem left_turn (assignment : Assignment) (work : Work) (index other : Nat) :
    (work.turn assignment index).left other ≤
      if other = index then work.left other - 1 else work.left other := by
  rcases work.jobs_turn assignment index with
    ⟨same, isLast⟩ | ⟨job, stage, shared, isJob, moves, _, jobs_eq⟩
  · rw [same]
    split
    · next isIndex => simp [isIndex, isLast]
    · exact Nat.le_refl _
  · have smaller := moves.left_lt
    rw [left, left, jobs_eq, List.getElem?_set]
    by_cases isIndex : index = other
    · subst isIndex
      have inside := (List.getElem?_eq_some_iff.1 isJob).1
      simp only [if_true, inside, isJob, Option.map_some, Option.getD_some]
      exact Nat.le_sub_one_of_lt smaller
    · simp [isIndex, Ne.symm isIndex]

theorem left_after_le (work : Work) (turns : List Nat) (index : Nat) :
    (work.after assignment turns).left index ≤ work.left index := by
  induction turns generalizing work with
  | nil => exact Nat.le_refl _
  | cons turn rest ih =>
    have here := left_turn assignment work turn index
    refine Nat.le_trans (ih _) (Nat.le_trans here ?_)
    split
    · exact Nat.sub_le _ _
    · exact Nat.le_refl _

theorem left_after_replicate (work : Work) (count index : Nat) :
    (work.after assignment (List.replicate count index)).left index ≤
      work.left index - count := by
  induction count generalizing work with
  | zero => exact Nat.le_refl _
  | succ count ih =>
    have here := left_turn assignment work index index
    rw [if_pos rfl] at here
    have later := ih (work.turn assignment index)
    exact Nat.le_trans later (by omega)

theorem left_le (work : Work) (index : Nat) : work.left index ≤ 5 := by
  rw [left]
  cases work.jobs[index]? with
  | none => exact Nat.zero_le _
  | some job => exact job.stage.left_le

/-- After all turns of a run the work on every file is finished. -/
theorem left_after_turns (schedule : List Nat) {files index : Nat} (inside : index < files) :
    (work.after assignment (turns schedule files)).left index = 0 := by
  obtain ⟨first, last, isRange⟩ := List.append_of_mem (List.mem_range.2 inside)
  rw [turns, isRange, List.flatMap_append, List.flatMap_cons, ← List.append_assoc,
    after_append, after_append]
  refine Nat.le_zero.1 (Nat.le_trans (left_after_le _ _ _) ?_)
  refine Nat.le_trans (left_after_replicate _ _ _) (Nat.le_of_eq ?_)
  exact Nat.sub_eq_zero_of_le (left_le _ _)

theorem left_eq {index : Nat} {job : Job} (isJob : work.jobs[index]? = some job) :
    work.left index = job.stage.left := by
  rw [left, isJob]
  rfl

end Work

/-- Finished jobs are known from their reports. -/
theorem eq_map_of_finished {jobs : List Job} (finished : ∀ job ∈ jobs, job.stage.left = 0) :
    jobs = (jobs.filterMap Job.report?).map fun report =>
      ⟨report.path, .finished report.status⟩ := by
  induction jobs with
  | nil => rfl
  | cons job rest ih =>
    obtain ⟨path, stage⟩ := job
    obtain ⟨status, isLast⟩ := Stage.eq_finished_of_left (finished _ List.mem_cons_self)
    have others := ih fun other member => finished other (List.mem_cons_of_mem _ member)
    cases isLast
    rw [List.filterMap_cons]
    exact congrArg (_ :: ·) others

section Ends

variable {assignment : Assignment} {tree : FileTree} {files : List String}

theorem kept_complete (assignment : Assignment) (tree : FileTree) (files : List String)
    (schedule : List Nat) :
    Kept assignment (.start tree files)
      (Moment assignment (.start tree files) (turns schedule files.length))
      (Work.complete assignment tree files schedule) :=
  kept_after (fun seen => kept_start assignment seen tree files) _

/-- When all turns are over, every file has its report. -/
theorem jobs_complete (assignment : Assignment) (tree : FileTree) (files : List String)
    (schedule : List Nat) :
    (Work.complete assignment tree files schedule).jobs =
      (Work.complete assignment tree files schedule).reports.map
        fun report => ⟨report.path, .finished report.status⟩ := by
  refine eq_map_of_finished fun job member => ?_
  have kept := kept_complete assignment tree files schedule
  obtain ⟨index, isJob⟩ := List.mem_iff_getElem?.1 member
  have inside : index < files.length := by
    have inside := (List.getElem?_eq_some_iff.1 isJob).1
    have length_eq := congrArg List.length kept.paths
    simp only [List.length_map] at length_eq
    rw [length_eq] at inside
    simpa [Work.start] using inside
  rw [← Work.left_eq isJob]
  exact Work.left_after_turns schedule inside

/-- What is known of a file does not change any more. -/
theorem status?_after (assignment : Assignment) {work : Work} {index : Nat} {job : Job}
    {status : FileStatus} (isJob : work.jobs[index]? = some job)
    (isKnown : job.stage.status? = some status) (turns : List Nat) :
    ∃ later, (work.after assignment turns).jobs[index]? = some later ∧
      later.path = job.path ∧ later.stage.status? = some status := by
  induction turns generalizing work job with
  | nil => exact ⟨job, isJob, rfl, isKnown⟩
  | cons turn rest ih =>
    change ∃ later,
      ((work.turn assignment turn).after assignment rest).jobs[index]? = some later ∧ _
    rcases work.jobs_turn assignment turn with
      ⟨same, _⟩ | ⟨own, stage, shared, isOwn, moves, _, jobs_eq⟩
    · rw [same]
      exact ih isJob isKnown
    · by_cases isTurn : turn = index
      · subst isTurn
        obtain rfl := Option.some.inj (isOwn.symm.trans isJob)
        have isNext : (work.turn assignment turn).jobs[turn]? = some { own with stage } := by
          rw [jobs_eq, List.getElem?_set_self (List.getElem?_eq_some_iff.1 isJob).1]
        have later := ih isNext (moves.status? isKnown)
        exact later
      · have isNext : (work.turn assignment turn).jobs[index]? = some job := by
          rw [jobs_eq, List.getElem?_set_ne isTurn, isJob]
        exact ih isNext isKnown

/-- A turn changes a content only for a file that is going to be reported as changed. -/
theorem exists_isChanged_of_turn {schedule earlier : List Nat} {index : Nat} {location : Location}
    (isPrefix : earlier ++ [index] <+: turns schedule files.length)
    (differs : ((Work.start tree files).after assignment (earlier ++ [index])).tree.content?
        location ≠ ((Work.start tree files).after assignment earlier).tree.content? location) :
    assignment.isWriting = true ∧ ∃ report,
      (Work.complete assignment tree files schedule).reports[index]? = some report ∧
      report.isChanged = true ∧ tree.locate assignment.directory report.path = .ok location := by
  obtain ⟨rest, isWhole⟩ := isPrefix
  have kept := kept_after (fun seen => kept_start assignment seen tree files) earlier
  rw [Work.after_append] at differs
  rcases Work.jobs_turn assignment ((Work.start tree files).after assignment earlier) index with
    ⟨same, _⟩ | ⟨job, stage, shared, isJob, moves, isTree, _⟩
  · exact absurd (congrArg (fun work => work.tree.content? location) same) differs
  · rw [show (((Work.start tree files).after assignment earlier).after assignment [index]).tree =
      shared.tree from isTree] at differs
    obtain ⟨output, isTarget, _⟩ := moves.exists_target differs
    obtain ⟨writes, isFound, _⟩ :=
      kept.aimed job (List.mem_of_getElem? isJob) location output isTarget
    obtain ⟨later, isLater, isPath, isKnown⟩ := status?_after assignment isJob
      (Stage.status?_of_target? isTarget) (index :: rest)
    rw [← Work.after_append, ← List.singleton_append, ← List.append_assoc, isWhole,
      ← Work.complete, jobs_complete, List.getElem?_map, Option.map_eq_some_iff] at isLater
    obtain ⟨report, isReport, rfl⟩ := isLater
    refine ⟨writes, report, isReport, ?_, ?_⟩
    · rw [FileReport.isChanged, Option.some.inj isKnown]
    · rw [← isPath] at isFound
      exact isFound

variable (assignment tree files) in
/--
What the work on files comes to, whatever the schedule.  Each file was read at a
moment of the run and its report says what became of it then; a file that is alone
at its place was found as it was before the run.  Only files that are reported as
changed are written, in their own turns, and what is left in a file that has
changed is an output.
-/
structure Completes (schedule : List Nat) (reports : List FileReport) (final : FileTree) :
    Prop where
  paths : reports.map (·.path) = files
  handled : ∀ report ∈ reports, ∃ seen,
    Moment assignment (.start tree files) (turns schedule files.length) seen ∧
      Handles assignment seen report.path report.status
  alone : ∀ report ∈ reports, StandsAlone assignment (.start tree files) report.path →
    Handles assignment tree report.path report.status
  turn : ∀ {earlier index location}, earlier ++ [index] <+: turns schedule files.length →
    ((Work.start tree files).after assignment (earlier ++ [index])).tree.content? location ≠
      ((Work.start tree files).after assignment earlier).tree.content? location →
    assignment.isWriting = true ∧ ∃ report, reports[index]? = some report ∧
      report.isChanged = true ∧ tree.locate assignment.directory report.path = .ok location
  left : ∀ {location}, final.content? location ≠ tree.content? location →
    assignment.isWriting = true ∧ ∃ report ∈ reports, ∃ seen output,
      Moment assignment (.start tree files) (turns schedule files.length) seen ∧
      Transforms assignment seen report.path location output ∧
      tree.locate assignment.directory report.path = .ok location ∧
      report.status = .changed output.applied ∧
      final.content? location = some (.text output.text)

theorem completes_complete (assignment : Assignment) (tree : FileTree) (files : List String)
    (schedule : List Nat) :
    Completes assignment tree files schedule
      (Work.complete assignment tree files schedule).reports
      (Work.complete assignment tree files schedule).tree := by
  have kept := kept_complete assignment tree files schedule
  have jobs_eq := jobs_complete assignment tree files schedule
  generalize isWork : Work.complete assignment tree files schedule = work at kept jobs_eq ⊢
  have isJob {report : FileReport} (member : report ∈ work.reports) :
      ⟨report.path, .finished report.status⟩ ∈ work.jobs := by
    rw [jobs_eq]
    exact List.mem_map_of_mem member
  constructor
  · have paths := kept.paths
    rw [jobs_eq, List.map_map] at paths
    simpa [Work.start, Function.comp_def] using paths
  · intro report member
    exact kept.handled _ (isJob member) _ rfl
  · intro report member alone
    exact kept.alone _ (isJob member) alone _ rfl
  · intro earlier index location isPrefix differs
    rw [← isWork]
    exact exists_isChanged_of_turn isPrefix differs
  · intro location differs
    obtain ⟨writes, job, member, seen, output, isMoment, transforms, isFound, isKnown, holds⟩ :=
      kept.contents location differs
    rw [jobs_eq] at member
    obtain ⟨report, isReport, rfl⟩ := List.mem_map.1 member
    refine ⟨writes, report, isReport, seen, output, isMoment, transforms, isFound,
      Option.some.inj isKnown, holds.resolve_left nofun⟩

end Ends

end Command

end Codemod
