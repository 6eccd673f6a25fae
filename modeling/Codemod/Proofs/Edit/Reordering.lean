import Codemod.Proofs.Edit.Arrangement
import Mathlib.Data.List.Perm.Subperm

/-!
# Edits in another order

Edits come in the order in which a transform plans them.  What they make of a
text depends only on the edits of each span, in their order: a stable sort
forgets the rest (`applyEdits_congr`).

Edits that are dropped leave no trace.  The kept ones by themselves are kept
again, and any way to take out the dropped edits leaves a list that is alike to
them (`alike_keptOf`).  It makes no difference which one of several equal edits is
taken out, because of the edits of one span either all share one fate or, where
they replace something, at most one is kept.
-/

namespace Codemod

open Text Edit

namespace Edit

variable {source : List Char} {reached offset : Nat} {edit other : Edit}
  {edits others sorted remaining : List Edit}

/-- The edits that are carried out, in the order of their places. -/
def keptOf (source : List Char) (edits : List Edit) : List Edit :=
  (select source 0 (sortBy precedes edits)).1

theorem keeps_keptOf (source : List Char) (edits : List Edit) :
    Keeps source [] (sortBy precedes edits) (keptOf source edits)
      (applyEdits source edits).dropped :=
  keeps_select source [] (sortBy precedes edits)

/-- What becomes of edits depends only on those of each span, in their order. -/
theorem applyEdits_congr (source : List Char) (alike : Alike edits others) :
    applyEdits source edits = applyEdits source others := by
  have sorts := (isStableSort_sortBy others).of_alike alike
  have same := (isStableSort_sortBy edits).unique sorts
  rw [← carryFrom_sortBy, ← carryFrom_sortBy, same]

/-! ## Kept and dropped edits -/

theorem perm_select (source : List Char) (reached : Nat) (sorted : List Edit) :
    ((select source reached sorted).1 ++ (select source reached sorted).2).Perm sorted := by
  induction sorted generalizing reached with
  | nil => exact .refl _
  | cons edit rest ih =>
    rw [select]
    split
    · exact (ih edit.stop).cons edit
    · exact List.perm_middle.trans ((ih reached).cons edit)

theorem select_kept (source : List Char) (reached : Nat) (sorted : List Edit) :
    select source reached (select source reached sorted).1 =
      ((select source reached sorted).1, []) := by
  induction sorted generalizing reached with
  | nil => rfl
  | cons edit rest ih =>
    rw [select]
    split
    · next fits =>
      dsimp only
      rw [select, if_pos fits, ih edit.stop]
    · exact ih reached

theorem perm_keptOf (source : List Char) (edits : List Edit) :
    (keptOf source edits ++ (applyEdits source edits).dropped).Perm edits :=
  (perm_select source 0 (sortBy precedes edits)).trans (sortBy_perm precedes edits)

/-- Kept edits are ranges of the text behind what was reached. -/
theorem fits_of_mem_kept (isKept : edit ∈ (select source reached sorted).1) :
    edit.fits source reached = true := by
  induction sorted generalizing reached with
  | nil => cases isKept
  | cons first rest ih =>
    rw [select] at isKept
    split at isKept
    · next fits =>
      rcases List.mem_cons.1 isKept with rfl | isLater
      · exact fits
      · have later := fits_eq_true_iff.1 (ih isLater)
        have own := fits_eq_true_iff.1 fits
        have forward : first.start ≤ first.stop := own.2.forward
        exact fits_eq_true_iff.2 ⟨by omega, later.2⟩
    · exact ih isKept

theorem mem_of_mem_dropped (isDropped : edit ∈ (select source reached sorted).2) : edit ∈ sorted :=
  (perm_select source reached sorted).mem_iff.1 (List.mem_append_right _ isDropped)

theorem fits_congr (same : edit.span = other.span) :
    edit.fits source reached = other.fits source reached := by
  simp only [span, Span.mk.injEq] at same
  rw [fits, fits, same.1, same.2]

/-! ## Edits of one span -/

/-- An insertion is not dropped where the pass has just come. -/
theorem span_ne_of_mem_dropped
    (ordered : sorted.Pairwise fun first second => first.precedes second = true)
    (behind : ∀ later ∈ sorted, offset < later.start ∨ offset = later.start ∧ offset ≤ later.stop)
    (boundary : isBoundary source offset = true)
    (isDropped : edit ∈ (select source offset sorted).2) : edit.span ≠ ⟨offset, offset⟩ := by
  induction sorted with
  | nil => cases isDropped
  | cons first rest ih =>
    obtain ⟨isFirst, orderedRest⟩ := List.pairwise_cons.1 ordered
    obtain ⟨_, behindRest⟩ := List.forall_mem_cons.1 behind
    by_cases isHere : first.span = ⟨offset, offset⟩
    · -- The first edit is an insertion here too, so the pass stays where it is.
      have bounds : first.start = offset ∧ first.stop = offset := by
        simpa only [span, Span.mk.injEq] using isHere
      have fits : first.fits source offset = true := by
        simp [Edit.fits, bounds, boundary]
      rw [select, if_pos fits, bounds.2] at isDropped
      exact ih orderedRest behindRest isDropped
    · -- The first edit stands behind all insertions here, and so do those after it.
      have beyond := (List.forall_mem_cons.1 behind).1
      have notBoth : ¬ (first.start = offset ∧ first.stop = offset) := by
        simpa only [span, Span.mk.injEq] using isHere
      intro same
      have bounds : edit.start = offset ∧ edit.stop = offset := by
        simpa only [span, Span.mk.injEq] using same
      rcases List.mem_cons.1 (mem_of_mem_dropped isDropped) with rfl | isLater
      · exact notBoth bounds
      · have later := precedes_iff.1 (isFirst edit isLater)
        omega

/-- Where one edit of a span is kept and another one dropped, they replace something. -/
theorem start_lt_stop_of_kept_of_dropped
    (ordered : sorted.Pairwise fun first second => first.precedes second = true)
    (isKept : edit ∈ (select source reached sorted).1)
    (isDropped : other ∈ (select source reached sorted).2) (same : edit.span = other.span) :
    edit.start < edit.stop := by
  induction sorted generalizing reached with
  | nil => cases isKept
  | cons first rest ih =>
    obtain ⟨isFirst, orderedRest⟩ := List.pairwise_cons.1 ordered
    rw [select] at isKept isDropped
    split at isKept
    · next fits =>
      rw [if_pos fits] at isDropped
      rcases List.mem_cons.1 isKept with rfl | isLater
      · have range := (fits_eq_true_iff.1 fits).2
        have forward : edit.start ≤ edit.stop := range.forward
        by_contra isInsertion
        have isEmpty : edit.start = edit.stop := by omega
        refine span_ne_of_mem_dropped orderedRest ?_ range.stopBoundary isDropped ?_
        · intro later isLater
          have isBefore := precedes_iff.1 (isFirst later isLater)
          change edit.stop < later.start ∨ edit.stop = later.start ∧ edit.stop ≤ later.stop
          omega
        · rw [← same, span, isEmpty]
      · exact ih orderedRest isLater isDropped
    · next clashes =>
      rw [if_neg clashes] at isDropped
      rcases List.mem_cons.1 isDropped with rfl | isLater
      · have fits := fits_of_mem_kept isKept
        rw [fits_congr same] at fits
        exact absurd fits clashes
      · exact ih orderedRest isKept isLater

theorem filter_span_eq_nil {span : Span} (absent : ¬ ∃ edit ∈ edits, edit.span = span) :
    (edits.filter fun edit => decide (edit.span = span)) = [] := by
  rw [List.filter_eq_nil_iff]
  exact fun edit member isThere => absent ⟨edit, member, of_decide_eq_true isThere⟩

/-- Of edits that follow one another, no two replace the same thing. -/
theorem length_filter_le_one {kept : List Edit} {span : Span}
    (apart : kept.Pairwise fun first second => first.stop ≤ second.start)
    (replaces : span.start < span.stop) :
    (kept.filter fun edit => decide (edit.span = span)).length ≤ 1 := by
  have apartThere := apart.filter fun edit => decide (edit.span = span)
  have areThere : ∀ edit ∈ kept.filter fun edit => decide (edit.span = span), edit.span = span :=
    fun edit isThere => of_decide_eq_true (List.mem_filter.1 isThere).2
  generalize kept.filter (fun edit => decide (edit.span = span)) = edits at apartThere areThere ⊢
  rcases edits with _ | ⟨first, _ | ⟨second, rest⟩⟩
  · exact Nat.zero_le 1
  · exact Nat.le_refl 1
  · have follows := (List.pairwise_cons.1 apartThere).1 second List.mem_cons_self
    have isFirst : first.span = span := areThere first List.mem_cons_self
    have isSecond : second.span = span :=
      areThere second (List.mem_cons_of_mem _ List.mem_cons_self)
    subst isFirst
    simp only [Edit.span, Span.mk.injEq] at isSecond replaces
    omega

theorem eq_of_perm_of_length_le_one {α : Type} {items single : List α}
    (perm : items.Perm single) (atMostOne : single.length ≤ 1) : items = single := by
  rcases single with _ | ⟨item, _ | ⟨second, rest⟩⟩
  · exact perm.eq_nil
  · exact List.perm_singleton.1 perm
  · exact absurd atMostOne (by simp)

/--
Whatever way the dropped edits are taken out of a list, what remains is alike to
the kept ones.
-/
theorem alike_keptOf (source : List Char) (isPart : remaining.Sublist edits)
    (isRest : (remaining ++ (applyEdits source edits).dropped).Perm edits) :
    Alike remaining (keptOf source edits) := by
  have sorts := isStableSort_sortBy edits
  have ordered := sorts.ordered.imp precedes_iff.2
  have keeps := keeps_keptOf source edits
  have apart := (keeps.isRow (List.nil_append source).symm rfl).pairwise
  have samePerm : remaining.Perm (keptOf source edits) := by
    apply (List.perm_append_right_iff (applyEdits source edits).dropped).1
    exact isRest.trans (perm_keptOf source edits).symm
  intro span
  have sameThere := samePerm.filter fun edit => decide (edit.span = span)
  by_cases isDropped : ∃ other ∈ (applyEdits source edits).dropped, other.span = span
  · -- At most one edit of the span is kept, so there is only one way to list what remains.
    obtain ⟨other, isDropped, isThere⟩ := isDropped
    have single :
        ((keptOf source edits).filter fun edit => decide (edit.span = span)).length ≤ 1 := by
      by_cases isKept : ∃ edit ∈ keptOf source edits, edit.span = span
      · obtain ⟨edit, isKept, isHere⟩ := isKept
        have replaces := start_lt_stop_of_kept_of_dropped ordered isKept isDropped
          (isHere.trans isThere.symm)
        exact length_filter_le_one apart (isHere ▸ replaces : span.start < span.stop)
      · rw [filter_span_eq_nil isKept]
        exact Nat.zero_le 1
    exact eq_of_perm_of_length_le_one sameThere single
  · -- No edit of the span is dropped, so all of them remain, and all of them are kept.
    have restThere := isRest.filter fun edit => decide (edit.span = span)
    rw [List.filter_append, filter_span_eq_nil isDropped, List.append_nil] at restThere
    have allRemain := (isPart.filter _).eq_of_length restThere.length_eq
    have stable := sorts.stable span
    have allKept := (keeps.sublist.filter fun edit => decide (edit.span = span)).eq_of_length
      (by rw [stable, ← restThere.length_eq, sameThere.length_eq])
    exact allRemain.trans (stable.symm.trans allKept.symm)

/-- The kept edits alone make the same text, and none of them is dropped. -/
theorem applyEdits_keptOf (source : List Char) (edits : List Edit) :
    applyEdits source (keptOf source edits) = ⟨(applyEdits source edits).text, []⟩ := by
  have sorts := isStableSort_sortBy edits
  have isSorted : IsStableSort (keptOf source edits) (keptOf source edits) :=
    ⟨sorts.ordered.sublist (keeps_keptOf source edits).sublist, fun _ => rfl⟩
  rw [← carryFrom_sortBy, ← isSorted.unique (isStableSort_sortBy _), carryFrom, keptOf,
    select_kept, dropBytes_zero]
  rfl

/--
The text that edits make, and the edits that are dropped, in their order, do not
depend on how the edits are listed, as long as those of the same span are in the
same order.  Dropped edits can be taken out, and whatever way they are, the text
is the same and nothing else is dropped.
-/
theorem edits_apply_in_any_order (source : List Char) (edits : List Edit) :
    (∀ others : List Edit, edits.Perm others →
      (∀ span : Span, (edits.filter fun edit => decide (edit.span = span)) =
        others.filter fun edit => decide (edit.span = span)) →
      applyEdits source others = applyEdits source edits) ∧
    (∃ remaining : List Edit, remaining.Sublist edits ∧
      (remaining ++ (applyEdits source edits).dropped).Perm edits) ∧
    ∀ remaining : List Edit, remaining.Sublist edits →
      (remaining ++ (applyEdits source edits).dropped).Perm edits →
      applyEdits source remaining = ⟨(applyEdits source edits).text, []⟩ := by
  refine ⟨fun others _ alike => (applyEdits_congr source alike).symm, ?_,
    fun remaining isPart isRest => ?_⟩
  · refine ⟨edits.diff (applyEdits source edits).dropped, List.diff_sublist _ _, ?_⟩
    apply List.perm_append_comm.trans
    apply List.subperm_append_diff_self_of_count_le
    intro edit _
    rw [← (perm_keptOf source edits).count_eq edit, List.count_append]
    exact Nat.le_add_left _ _
  · rw [applyEdits_congr source (alike_keptOf source isPart isRest), applyEdits_keptOf]

/-- Edits at one place, across one another and beyond the end of a text of six characters. -/
def crossingEdits : List Edit :=
  [.replace ⟨2, 5⟩ ['y'], .replace ⟨0, 4⟩ ['x'], .replace ⟨0, 4⟩ ['z'], .insert 0 ['i'],
    .delete ⟨5, 9⟩]

/-- Two of the edits are kept, also if they are listed in another order or by themselves. -/
theorem edits_apply_in_any_order_of_crossingEdits :
    applyEdits "abcdef".toList (crossingEdits.drop 1 ++ crossingEdits.take 1) =
        applyEdits "abcdef".toList crossingEdits ∧
      (applyEdits "abcdef".toList crossingEdits).dropped.length = 3 ∧
      applyEdits "abcdef".toList [.replace ⟨0, 4⟩ ['x'], .insert 0 ['i']] =
        ⟨"ixef".toList, []⟩ := by
  obtain ⟨reordered, _, reduced⟩ := edits_apply_in_any_order "abcdef".toList crossingEdits
  have alike : Alike crossingEdits (crossingEdits.drop 1 ++ crossingEdits.take 1) := by
    change Alike (crossingEdits.take 1 ++ crossingEdits.drop 1) _
    exact Alike.swap (by decide)
  refine ⟨reordered _ alike.perm alike, by decide, ?_⟩
  exact reduced _ (by decide) (by decide)

end Edit

end Codemod
