import Codemod.Registry
import Mathlib.Data.List.Nodup

/-!
# The order of a run

A transform may be registered more than once, and two transforms may have the
same name, so a run is not a matter of names alone.  An entry is a transform
with the place of its registration; a schedule holds the entries that are asked
for, in an order that compares what they change first and their places second.

No two entries come both before each other (`RunsBefore.asymm`), so a schedule
is determined by its entries (`IsSchedule.unique`).  How the names are listed
that ask for them plays no part.
-/

namespace Codemod.Registry

/-- An entry comes before another one in a run. -/
def RunsBefore (first second : Transform × Nat) : Prop :=
  first.1.changesModule = true ∧ second.1.changesModule = false ∨
    first.1.changesModule = second.1.changesModule ∧ first.2 < second.2

/-- The entries that are asked for by name, all of them if there are no names, in their order. -/
structure IsSchedule (registry : Registry) (asked : List String)
    (entries : List (Transform × Nat)) : Prop where
  members : ∀ transform place, (transform, place) ∈ entries ↔
    registry.transforms[place]? = some transform ∧ (asked = [] ∨ transform.name ∈ asked)
  pairwise : entries.Pairwise RunsBefore

/-- Transforms in the order in which the entries that are asked for run. -/
def IsRun (registry : Registry) (asked : List String) (run : List Transform) : Prop :=
  ∃ entries, registry.IsSchedule asked entries ∧ run = entries.map Prod.fst

variable {registry : Registry} {asked : List String} {name : String} {run : List Transform}

/-! ## Schedules -/

theorem RunsBefore.asymm {first second : Transform × Nat} (before : RunsBefore first second) :
    ¬ RunsBefore second first := by
  rintro (⟨changes, keeps⟩ | ⟨same, later⟩)
  · rcases before with ⟨_, isKept⟩ | ⟨same, _⟩
    · simp [changes] at isKept
    · simp [changes, keeps] at same
  · rcases before with ⟨changes, keeps⟩ | ⟨_, earlier⟩
    · simp [changes, keeps] at same
    · exact Nat.lt_asymm earlier later

variable {entries : List (Transform × Nat)}

theorem IsSchedule.nodup (isSchedule : registry.IsSchedule asked entries) : entries.Nodup := by
  refine isSchedule.pairwise.imp ?_
  rintro first second before rfl
  exact before.asymm before

/-- There is one schedule for what is asked for. -/
theorem IsSchedule.unique {first second : List (Transform × Nat)}
    (isFirst : registry.IsSchedule asked first) (isSecond : registry.IsSchedule asked second) :
    first = second := by
  have samePerm : first.Perm second := by
    rw [List.perm_ext_iff_of_nodup isFirst.nodup isSecond.nodup]
    rintro ⟨transform, place⟩
    rw [isFirst.members, isSecond.members]
  refine samePerm.eq_of_pairwise ?_ isFirst.pairwise isSecond.pairwise
  intro entry other _ _ before after
  exact absurd after before.asymm

/-- The entries that are asked for, in two groups. -/
def schedule (registry : Registry) (asked : List String) : List (Transform × Nat) :=
  let selected := registry.transforms.zipIdx.filter fun entry => isSelected asked entry.1
  selected.filter (fun entry => entry.1.changesModule) ++
    selected.filter fun entry => !entry.1.changesModule

theorem isSelected_iff {transform : Transform} :
    isSelected asked transform = true ↔ asked = [] ∨ transform.name ∈ asked := by
  rw [isSelected, Bool.or_eq_true, List.isEmpty_iff, List.contains_iff_mem]

theorem isSchedule_schedule (registry : Registry) (asked : List String) :
    registry.IsSchedule asked (registry.schedule asked) where
  members transform place := by
    simp only [schedule, List.mem_append, List.mem_filter, List.mem_zipIdx_iff_getElem?,
      isSelected_iff, ← and_or_left]
    cases transform.changesModule <;> simp
  pairwise := by
    have inPlace : registry.transforms.zipIdx.Pairwise fun first second => first.2 < second.2 := by
      rw [← List.pairwise_map, List.zipIdx_map_snd]
      exact List.pairwise_lt_range'
    have inGroup := inPlace.filter fun entry => isSelected asked entry.1
    rw [schedule, List.pairwise_append]
    refine ⟨List.pairwise_filter.2 (inGroup.imp ?_), List.pairwise_filter.2 (inGroup.imp ?_), ?_⟩
    · intro first second earlier isFirst isSecond
      exact Or.inr ⟨isFirst.trans isSecond.symm, earlier⟩
    · intro first second earlier isFirst isSecond
      exact Or.inr ⟨Bool.not_inj (isFirst.trans isSecond.symm), earlier⟩
    · intro first isFirst second isSecond
      rw [List.mem_filter, Bool.not_eq_true'] at isSecond
      exact Or.inl ⟨(List.mem_filter.1 isFirst).2, isSecond.2⟩

theorem isRun_iff : registry.IsRun asked run ↔ run = (registry.schedule asked).map Prod.fst := by
  constructor
  · rintro ⟨entries, isSchedule, rfl⟩
    rw [isSchedule.unique (isSchedule_schedule registry asked)]
  · intro isRun
    exact ⟨_, isSchedule_schedule registry asked, isRun⟩

/-- Only which names there are matters to a schedule. -/
theorem IsSchedule.congr {first second : List String} (same : ∀ name, name ∈ first ↔ name ∈ second)
    (isSchedule : registry.IsSchedule first entries) : registry.IsSchedule second entries := by
  refine ⟨fun transform place => ?_, isSchedule.pairwise⟩
  have sameEmpty : first = [] ↔ second = [] := by
    simp only [List.eq_nil_iff_forall_not_mem, same]
  rw [isSchedule.members, sameEmpty, same]

theorem IsRun.congr {first second : List String} (same : ∀ name, name ∈ first ↔ name ∈ second)
    (isRun : registry.IsRun first run) : registry.IsRun second run := by
  obtain ⟨entries, isSchedule, isRun⟩ := isRun
  exact ⟨entries, isSchedule.congr same, isRun⟩

/-! ## Asking by name -/

theorem isNone_find?_iff : (registry.find? name).isNone = true ↔ name ∉ registry.names := by
  rw [find?, Option.isNone_iff_eq_none, List.find?_eq_none, names, List.mem_map]
  simp

theorem find?_unknown_eq_some_iff :
    asked.find? (fun name => (registry.find? name).isNone) = some name ↔
      ∃ before after, asked = before ++ name :: after ∧
        (∀ known ∈ before, known ∈ registry.names) ∧ name ∉ registry.names := by
  have isKnown : ∀ known, (!(registry.find? known).isNone) = true ↔ known ∈ registry.names := by
    intro known
    rw [Bool.not_eq_true', ← Bool.not_eq_true, isNone_find?_iff, not_not]
  simp only [List.find?_eq_some_iff_append, isNone_find?_iff, isKnown]
  constructor
  · rintro ⟨isUnknown, before, after, isAsked, areKnown⟩
    exact ⟨before, after, isAsked, areKnown, isUnknown⟩
  · rintro ⟨before, after, isAsked, areKnown, isUnknown⟩
    exact ⟨isUnknown, before, after, isAsked, areKnown⟩

theorem find?_unknown_eq_none_iff :
    asked.find? (fun name => (registry.find? name).isNone) = none ↔
      ∀ name ∈ asked, name ∈ registry.names := by
  simp only [List.find?_eq_none, isNone_find?_iff, not_not]

theorem map_fst_schedule (registry : Registry) (asked : List String) :
    (registry.schedule asked).map Prod.fst =
      (registry.transforms.filter (isSelected asked)).filter Transform.changesModule ++
        (registry.transforms.filter (isSelected asked)).filter
          fun transform => !transform.changesModule := by
  have selected : registry.transforms.filter (isSelected asked) =
      (registry.transforms.zipIdx.filter fun entry => isSelected asked entry.1).map Prod.fst := by
    have transforms := List.zipIdx_map_fst 0 registry.transforms
    nth_rewrite 1 [← transforms]
    exact List.filter_map
  rw [selected, List.filter_map, List.filter_map, ← List.map_append]
  rfl

theorem ordered_eq_ok_iff : registry.ordered asked = .ok run ↔
      (∀ name ∈ asked, name ∈ registry.names) ∧ registry.IsRun asked run := by
  rw [isRun_iff, map_fst_schedule, ← find?_unknown_eq_none_iff, ordered]
  split
  · next unknown isFound => simp [isFound]
  · next isFound => simp [isFound, eq_comm]

/--
A request fails exactly if one of its names is not registered, and reports the
first of them.  Otherwise every registration that is asked for runs once, those
that change what other modules see before the others, and as they were
registered otherwise.  The order and repetition of the names do not matter.
-/
theorem transforms_run_in_order (registry : Registry) :
    (∀ asked name, registry.ordered asked = .error name ↔
      ∃ before after, asked = before ++ name :: after ∧
        (∀ known ∈ before, known ∈ registry.names) ∧ name ∉ registry.names) ∧
    (∀ asked, (∀ name ∈ asked, name ∈ registry.names) → ∃ run, registry.ordered asked = .ok run) ∧
    (∀ asked run, registry.ordered asked = .ok run ↔
      (∀ name ∈ asked, name ∈ registry.names) ∧ registry.IsRun asked run) ∧
    ∀ first second, (∀ name, name ∈ first ↔ name ∈ second) →
      ∀ run, registry.ordered first = .ok run ↔ registry.ordered second = .ok run := by
  refine ⟨fun asked name => ?_, fun asked areKnown => ?_, fun asked run => ordered_eq_ok_iff, ?_⟩
  · rw [← find?_unknown_eq_some_iff, ordered]
    split
    · next unknown isFound => simp [isFound]
    · next isFound => simp [isFound]
  · exact ⟨_, ordered_eq_ok_iff.2 ⟨areKnown, isRun_iff.2 rfl⟩⟩
  · intro first second same run
    simp only [ordered_eq_ok_iff, same]
    exact and_congr_right' ⟨.congr same, .congr fun name => (same name).symm⟩

/-- The transforms of this library, one of them registered once more at the end. -/
def withRepetition : Registry :=
  builtin.register .pureToComposite

/--
Both registrations of a transform run before the transform that leaves modules
as they are, in whatever way they are asked for; and of two unknown names the
first is reported.
-/
theorem transforms_run_in_order_of_withRepetition :
    let first := ["bind-expression", "pure-to-composite", "bind-expression"]
    let second := ["pure-to-composite", "bind-expression"]
    (∀ name, name ∈ first ↔ name ∈ second) ∧
    (∀ name ∈ first, name ∈ withRepetition.names) ∧
    (∃ run, withRepetition.ordered first = .ok run ∧ withRepetition.ordered second = .ok run ∧
      run = [.pureToComposite, .pureToComposite, .bindExpression]) ∧
    withRepetition.ordered ["bind-expression", "arrow", "bind"] = .error "arrow" := by
  intro first second
  have same : ∀ name, name ∈ first ↔ name ∈ second := by
    simp only [first, second, List.mem_cons]
    grind
  have areKnown : ∀ name ∈ first, name ∈ withRepetition.names := by decide +kernel
  obtain ⟨reports, succeeds, _, agree⟩ := transforms_run_in_order withRepetition
  obtain ⟨run, isRun⟩ := succeeds first areKnown
  refine ⟨same, areKnown, ⟨run, isRun, (agree first second same run).1 isRun, ?_⟩, ?_⟩
  · have evaluated : withRepetition.ordered first =
        .ok [.pureToComposite, .pureToComposite, .bindExpression] := by
      rfl
    exact Except.ok.inj (isRun.symm.trans evaluated)
  · refine (reports _ _).2 ⟨["bind-expression"], ["bind"], rfl, ?_, ?_⟩ <;> decide +kernel

end Codemod.Registry
