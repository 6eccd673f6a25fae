import Codemod.Proofs.Edit.Arrangement

/-!
# Edits that take others with them

Edits are kept or dropped one by one in the order of their places, so in general
whether an edit is kept depends on all that come before it.  Not so where two
edits stand apart unless one of them covers the other: then an edit is dropped
just if it is covered, and it makes no difference whether what covers it is kept
itself (`dropped_applyEdits_of_laminar`).
-/

namespace Codemod

/-- Whether two spans share no text. -/
def Span.isApart (first second : Span) : Bool :=
  first.stop ≤ second.start || second.stop ≤ first.start

theorem Span.isApart_iff {first second : Span} :
    first.isApart second = true ↔
      first.stop ≤ second.start ∨ second.stop ≤ first.start := by
  simp [isApart]

namespace Edit

open Text

/-- Whether an edit replaces the text that another one starts in, to its end. -/
def covers (outer inner : Edit) : Bool :=
  outer.start < inner.start && inner.start < outer.stop && inner.stop ≤ outer.stop

theorem covers_iff {outer inner : Edit} : outer.covers inner = true ↔
      outer.start < inner.start ∧ inner.start < outer.stop ∧ inner.stop ≤ outer.stop := by
  simp [covers, and_assoc]

theorem covers_eq_false_of_isApart {outer inner : Edit} (forward : inner.start ≤ inner.stop)
    (apart : outer.span.isApart inner.span = true) : outer.covers inner = false := by
  have bounds : outer.stop ≤ inner.start ∨ inner.stop ≤ outer.start := Span.isApart_iff.1 apart
  rw [Bool.eq_false_iff, Ne, covers_iff]
  omega

theorem covers_eq_false_of_covers {outer inner : Edit}
    (covers : inner.covers outer = true) : outer.covers inner = false := by
  rw [covers_iff] at covers
  rw [Bool.eq_false_iff, Ne, covers_iff]
  omega

/-- Two edits stand apart, or one of them covers the other. -/
def Laminar (first second : Edit) : Prop :=
  first.span.isApart second.span = true ∨
    first.covers second = true ∨ second.covers first = true

theorem Laminar.symm {first second : Edit} (laminar : first.Laminar second) :
    second.Laminar first := by
  rcases laminar with apart | covered | covering
  · exact Or.inl (Span.isApart_iff.2 (Span.isApart_iff.1 apart).symm)
  · exact Or.inr (Or.inr covered)
  · exact Or.inr (Or.inl covering)

/-- Whether one of some edits covers an edit. -/
def isCovered (planned : List Edit) (edit : Edit) : Bool :=
  planned.any fun outer => outer.covers edit

theorem isCovered_iff {planned : List Edit} {edit : Edit} :
    isCovered planned edit = true ↔ ∃ outer ∈ planned, outer.covers edit = true :=
  List.any_eq_true

/--
The edits that are left once others have reached an offset.  Those that are not
covered start behind it, and those that are will be covered by one of the rest,
unless they end before it.
-/
structure Remains (planned rest : List Edit) (reached : Nat) : Prop where
  isPlanned : rest ⊆ planned
  free : ∀ edit ∈ rest, isCovered planned edit = false → reached ≤ edit.start
  taken : ∀ edit ∈ rest, isCovered planned edit = true →
    (∃ outer ∈ rest, outer.covers edit = true) ∨
      edit.start < reached ∧ edit.stop ≤ reached

variable {source : List Char} {planned rest : List Edit} {edit : Edit} {reached : Nat}

section

variable (remains : Remains planned (edit :: rest) reached)
    (isFirst : ∀ later ∈ rest,
      edit.start < later.start ∨ edit.start = later.start ∧ edit.stop ≤ later.stop)
include remains isFirst

/-- An edit that is not covered is followed by those that it covers or stands before. -/
theorem Remains.keep (laminar : ∀ later ∈ rest, edit.Laminar later)
    (ranges : ∀ later ∈ rest, IsRange source later.span)
    (uncovered : isCovered planned edit = false) : Remains planned rest edit.stop := by
  rcases List.cons_subset.1 remains.isPlanned with ⟨isEdit, isPlanned⟩
  have starts := remains.free edit List.mem_cons_self uncovered
  constructor
  · exact isPlanned
  · intro later isLater isFree
    have forward : later.start ≤ later.stop := (ranges later isLater).forward
    rcases laminar later isLater with apart | covered | covering
    · have isOrdered := isFirst later isLater
      rcases Span.isApart_iff.1 apart with before | behind
      · exact before
      · have stops : later.stop ≤ edit.start := behind
        omega
    · have isCovered := isCovered_iff.2 ⟨edit, isEdit, covered⟩
      rw [isFree] at isCovered
      cases isCovered
    · have isOrdered := isFirst later isLater
      rw [covers_iff] at covering
      omega
  · intro later isLater isTaken
    rcases remains.taken later (List.mem_cons_of_mem _ isLater) isTaken with
      ⟨outer, isOuter, covered⟩ | ⟨early, _⟩
    · rcases List.mem_cons.1 isOuter with rfl | isRest
      · rw [covers_iff] at covered
        exact Or.inr ⟨covered.2.1, covered.2.2⟩
      · exact Or.inl ⟨outer, isRest, covered⟩
    · have isOrdered := isFirst later isLater
      omega

/-- An edit that is covered starts too early, and what it covers ends with it. -/
theorem Remains.drop (covered : isCovered planned edit = true) :
    edit.start < reached ∧ Remains planned rest reached := by
  have ends : edit.start < reached ∧ edit.stop ≤ reached := by
    rcases remains.taken edit List.mem_cons_self covered with ⟨outer, isOuter, covers⟩ | ends
    · rw [covers_iff] at covers
      rcases List.mem_cons.1 isOuter with rfl | isRest
      · omega
      · have isOrdered := isFirst outer isRest
        omega
    · exact ends
  refine ⟨ends.1, ?_⟩
  constructor
  · exact (List.cons_subset.1 remains.isPlanned).2
  · intro later isLater
    exact remains.free later (List.mem_cons_of_mem _ isLater)
  · intro later isLater isTaken
    rcases remains.taken later (List.mem_cons_of_mem _ isLater) isTaken with
      ⟨outer, isOuter, covers⟩ | isBefore
    · rcases List.mem_cons.1 isOuter with rfl | isRest
      · rw [covers_iff] at covers
        exact Or.inr ⟨by omega, by omega⟩
      · exact Or.inl ⟨outer, isRest, covers⟩
    · exact Or.inr isBefore

end

theorem Remains.dropped_select (remains : Remains planned rest reached)
    (ordered : rest.Pairwise fun first second => first.start < second.start ∨
      first.start = second.start ∧ first.stop ≤ second.stop)
    (ranges : ∀ edit ∈ rest, IsRange source edit.span) (laminar : rest.Pairwise Laminar) :
    (select source reached rest).2 = rest.filter (isCovered planned) := by
  induction rest generalizing reached with
  | nil => rfl
  | cons edit rest ih =>
    rcases List.pairwise_cons.1 ordered with ⟨isFirst, orderedRest⟩
    rcases List.pairwise_cons.1 laminar with ⟨isLaminar, laminarRest⟩
    rcases List.forall_mem_cons.1 ranges with ⟨range, rangesRest⟩
    cases covered : isCovered planned edit with
    | false =>
      have fits : edit.fits source reached = true :=
        fits_eq_true_iff.2 ⟨remains.free edit List.mem_cons_self covered, range⟩
      rw [List.filter_cons_of_neg (by simp [covered]), ← ih
        (remains.keep isFirst isLaminar rangesRest covered) orderedRest rangesRest
        laminarRest]
      rw [select, if_pos fits]
    | true =>
      rcases remains.drop isFirst covered with ⟨early, remainsRest⟩
      have clashes : ¬ edit.fits source reached = true := by
        rw [fits_eq_true_iff]
        omega
      rw [List.filter_cons_of_pos covered,
        ← ih remainsRest orderedRest rangesRest laminarRest]
      rw [select, if_neg clashes]

/-- Of edits that stand apart or cover one another, the covered ones are dropped. -/
theorem dropped_applyEdits_of_laminar (ranges : ∀ edit ∈ planned, IsRange source edit.span)
    (laminar : planned.Pairwise Laminar) :
    (applyEdits source planned).dropped = (sortBy precedes planned).filter (isCovered planned) := by
  have start : Remains planned (sortBy precedes planned) 0 := by
    constructor
    · intro edit isEdit
      exact mem_sortBy.1 isEdit
    · intro edit _ _
      exact Nat.zero_le _
    · intro edit _ covered
      rcases isCovered_iff.1 covered with ⟨outer, isOuter, covers⟩
      exact Or.inl ⟨outer, mem_sortBy.2 isOuter, covers⟩
  apply start.dropped_select (isStableSort_sortBy planned).ordered
  · intro edit isEdit
    exact ranges edit (mem_sortBy.1 isEdit)
  · exact laminar.perm (sortBy_perm precedes planned).symm fun isLaminar => isLaminar.symm

end Edit

end Codemod
