import Codemod.Proofs.Edit.Covering

/-!
# What edits make of a range

Edits that are apart from a range do not change what becomes of it.  The edits
that touch the range put a text in its place, and on both sides of this text
stands what the edits on that side make by themselves (`becomes_of_arranges`).
-/

namespace Codemod

open Text Edit

namespace Edit

variable {source text : List Char} {start stop : Nat} {span : Span} {edit : Edit}
  {planned lost : List Edit}

/-- The edits before a range. -/
def before (span : Span) (planned : List Edit) : List Edit :=
  planned.filter fun edit => edit.span.stop ≤ span.start

/-- The edits that touch a range. -/
def touching (span : Span) (planned : List Edit) : List Edit :=
  planned.filter fun edit => !edit.span.isApart span

theorem touching_append (span : Span) (first second : List Edit) :
    touching span (first ++ second) = touching span first ++ touching span second :=
  List.filter_append ..

/-- The edits behind a range. -/
def behind (span : Span) (planned : List Edit) : List Edit :=
  planned.filter fun edit =>
    !decide (edit.span.stop ≤ span.start) && decide (span.stop ≤ edit.span.start)

/--
A range of a text becomes another text: what stands before it in the output is
what the edits before the range make of the text before it, and likewise behind.
-/
def Becomes (source : List Char) (planned : List Edit) (span : Span) (text : List Char) : Prop :=
  ∃ front back, (applyEdits source planned).text = front ++ text ++ back ∧
    (applyEdits source (before span planned)).text =
      front ++ slice source span.start (byteLength source) ∧
    (applyEdits source (behind span planned)).text = slice source 0 span.stop ++ back

theorem filter_span_of_filter (planned : List Edit) (has : Span → Bool) (own : Span) :
    ((planned.filter fun edit => has edit.span).filter fun edit => decide (edit.span = own)) =
      if has own then planned.filter fun edit => decide (edit.span = own) else [] := by
  rw [List.filter_filter]
  cases isHere : has own with
  | true =>
    rw [if_pos rfl]
    refine List.filter_congr fun edit _ => ?_
    by_cases isOwn : edit.span = own
    · simp [isOwn, isHere]
    · simp [isOwn]
  | false =>
    rw [if_neg Bool.false_ne_true, List.filter_eq_nil_iff]
    intro edit _ both
    simp only [Bool.and_eq_true, decide_eq_true_eq] at both
    rw [both.1, isHere] at both
    exact Bool.false_ne_true both.2

/-- Edits keep their order among those of the same span when they are parted by a range. -/
theorem alike_sides (span : Span) (planned : List Edit) :
    Alike planned (before span planned ++ touching span planned ++ behind span planned) := by
  intro own
  rw [before, touching, behind, List.filter_append, List.filter_append,
    filter_span_of_filter planned (fun own => decide (own.stop ≤ span.start)),
    filter_span_of_filter planned (fun own => !own.isApart span),
    filter_span_of_filter planned fun own =>
      !decide (own.stop ≤ span.start) && decide (span.stop ≤ own.start)]
  by_cases first : own.stop ≤ span.start <;> by_cases last : span.stop ≤ own.start <;>
    simp [Span.isApart, first, last]

/-- Edits of a range come to something, whatever they are. -/
theorem exists_carry {reached : Nat} {sorted : List Edit}
    (gap : IsRange source ⟨reached, stop⟩) (inside : ∀ edit ∈ sorted, edit.stop ≤ stop) :
    ∃ text dropped, ∀ rest : List Edit, (∀ edit ∈ rest, stop ≤ edit.start) →
      carryFrom source reached (sorted ++ rest) =
        (carryFrom source stop rest).behind text dropped := by
  induction sorted generalizing reached with
  | nil => exact ⟨_, [], fun rest behind => carryFrom_of_le gap behind⟩
  | cons edit sorted ih =>
    have within := inside edit List.mem_cons_self
    have others := fun other isOther => inside other (List.mem_cons_of_mem edit isOther)
    by_cases fits : edit.fits source reached = true
    · obtain ⟨follows, range⟩ := fits_eq_true_iff.1 fits
      have near : IsRange source ⟨reached, edit.start⟩ :=
        ⟨follows, Nat.le_trans range.forward range.inside, gap.startBoundary, range.startBoundary⟩
      have further : IsRange source ⟨edit.stop, stop⟩ :=
        ⟨within, gap.inside, range.stopBoundary, gap.stopBoundary⟩
      obtain ⟨text, dropped, carries⟩ := ih further others
      refine ⟨slice source reached edit.start ++ edit.text ++ text, dropped,
        fun rest behind => ?_⟩
      rw [List.cons_append, carryFrom_cons_of_range near range, carries rest behind,
        Edited.behind_behind, List.nil_append]
    · obtain ⟨text, dropped, carries⟩ := ih gap others
      refine ⟨text, edit :: dropped, fun rest behind => ?_⟩
      rw [List.cons_append, carryFrom_cons_of_not_fits fits, carries rest behind,
        Edited.behind_behind]
      rfl

theorem exists_arranges (range : IsRange source ⟨start, stop⟩)
    (inside : ∀ edit ∈ planned, start ≤ edit.start ∧ edit.start ≤ edit.stop ∧ edit.stop ≤ stop) :
    ∃ text lost, Arranges source start stop planned text lost := by
  have insideSorted : ∀ edit ∈ sortBy precedes planned,
      start ≤ edit.start ∧ edit.start ≤ edit.stop ∧ edit.stop ≤ stop :=
    fun edit isEdit => inside edit (mem_sortBy.1 isEdit)
  obtain ⟨text, dropped, carries⟩ := exists_carry range fun edit isEdit =>
    (insideSorted edit isEdit).2.2
  refine ⟨text, dropped, range, inside, _, dropped, isStableSort_sortBy planned, .refl _, ?_⟩
  intro reached rest gap behind
  have follow : ∀ edit ∈ sortBy precedes planned ++ rest, start ≤ edit.start := by
    intro edit isEdit
    rcases List.mem_append.1 isEdit with isOwn | isRest
    · exact (insideSorted edit isOwn).1
    · exact Nat.le_trans range.forward (behind edit isRest)
  rw [carryFrom_of_le gap follow, carries rest behind, Edited.behind_behind]
  rfl

/-- What becomes of a range is decided by the edits that touch it. -/
theorem becomes_of_arranges
    (arranged : Arranges source span.start span.stop (touching span planned) text lost)
    (inside : ∀ edit ∈ planned, edit.start ≤ edit.stop ∧ edit.stop ≤ byteLength source) :
    Becomes source planned span text ∧ lost ⊆ (applyEdits source planned).dropped := by
  have range := arranged.range
  have isStart : IsRange source ⟨0, span.start⟩ :=
    ⟨Nat.zero_le _, Nat.le_trans range.forward range.inside,
      isBoundary_iff.2 ⟨[], source, rfl, rfl⟩, range.startBoundary⟩
  have isStop : IsRange source ⟨span.stop, byteLength source⟩ :=
    ⟨range.inside, Nat.le_refl _, range.stopBoundary,
      isBoundary_iff.2 ⟨source, [], (List.append_nil source).symm, rfl⟩⟩
  have isFront : IsRange source ⟨0, span.stop⟩ :=
    ⟨Nat.zero_le _, range.inside, isStart.startBoundary, range.stopBoundary⟩
  have isBack : IsRange source ⟨span.start, byteLength source⟩ :=
    ⟨isStart.inside, Nat.le_refl _, range.startBoundary, isStop.stopBoundary⟩
  obtain ⟨front, lostBefore, first⟩ : ∃ text lost,
      Arranges source 0 span.start (before span planned) text lost := by
    refine exists_arranges isStart fun edit isEdit => ?_
    obtain ⟨isPlanned, isBefore⟩ := List.mem_filter.1 isEdit
    exact ⟨Nat.zero_le _, (inside edit isPlanned).1, of_decide_eq_true isBefore⟩
  obtain ⟨back, lostBehind, last⟩ : ∃ text lost,
      Arranges source span.stop (byteLength source) (behind span planned) text lost := by
    refine exists_arranges isStop fun edit isEdit => ?_
    obtain ⟨isPlanned, isBehind⟩ := List.mem_filter.1 isEdit
    simp only [Bool.and_eq_true, decide_eq_true_eq] at isBehind
    exact ⟨isBehind.2, inside edit isPlanned⟩
  have whole := ((first.append arranged).append last).reorder (alike_sides span planned)
  have frontOnly := first.append (.copied isBack)
  have backOnly := (Arranges.copied isFront).append last
  rw [List.append_nil] at frontOnly
  refine ⟨⟨front, back, whole.applyEdits.1, frontOnly.applyEdits.1, backOnly.applyEdits.1⟩, ?_⟩
  intro edit isLost
  exact whole.applyEdits.2.mem_iff.2 (List.mem_append_left _ (List.mem_append_right _ isLost))

/-- A range that no edit touches stays as it is. -/
theorem becomes_self (range : IsRange source span) (untouched : touching span planned = [])
    (inside : ∀ edit ∈ planned, edit.start ≤ edit.stop ∧ edit.stop ≤ byteLength source) :
    Becomes source planned span (slice source span.start span.stop) := by
  have arranged := Arranges.copied range
  rw [← untouched] at arranged
  exact (becomes_of_arranges arranged inside).1

/-- A range that only one edit touches, its own, becomes the text of the edit. -/
theorem becomes_text (range : IsRange source edit.span)
    (alone : touching edit.span planned = [edit])
    (inside : ∀ edit ∈ planned, edit.start ≤ edit.stop ∧ edit.stop ≤ byteLength source) :
    Becomes source planned edit.span edit.text := by
  have arranged := Arranges.replaced range
  rw [← alone] at arranged
  exact (becomes_of_arranges arranged inside).1

end Edit

end Codemod
