import Codemod.Proofs.Edit.Splicing

/-!
# Edits that are planned part by part

A transform that walks a tree plans the edits of a node and of its parts in the
order of the walk, and all edits are then carried out in the order of their
places.  `Arranges` says what the edits planned for a range of the source come
to, without a look at the rest of the source: the text that they put in place
of the range, and the edits that are lost because they overlap.  It is built up
from ranges that follow one another, so a proof about a tree needs no sorting:
a stable sort is unique (`IsStableSort.unique`), and edits of different spans
may be listed in any order (`Alike`).
-/

namespace Codemod

open Text Edit

namespace Text

variable {source : List Char} {start middle stop : Nat}

theorem slice_self (source : List Char) (offset : Nat) : slice source offset offset = [] := by
  rw [slice, Nat.sub_self]
  cases dropBytes offset source with
  | nil => rfl
  | cons char rest =>
    have positive := Char.utf8Size_pos char
    rw [takeBytes, if_neg (by omega)]

theorem dropBytes_zero (source : List Char) : dropBytes 0 source = source :=
  dropBytes_append [] source

theorem dropBytes_byteLength (source : List Char) : dropBytes (byteLength source) source = [] := by
  simpa using dropBytes_append source []

/-- A range stands between what is before it and what is behind it. -/
theorem exists_parts (range : IsRange source ⟨start, stop⟩) :
    ∃ before inside after, source = before ++ (inside ++ after) ∧
      start = byteLength before ∧ stop = byteLength (before ++ inside) := by
  rcases isBoundary_iff.1 range.startBoundary with ⟨before, rest, rfl, isStart⟩
  have reaches : byteLength before ≤ stop := isStart ▸ range.forward
  rcases Text.exists_split range.stopBoundary reaches with ⟨inside, after, rfl, isStop⟩
  exact ⟨before, inside, after, rfl, isStart.symm, by rw [byteLength_append]; exact isStop⟩

theorem slice_append_dropBytes (range : IsRange source ⟨start, stop⟩) :
    slice source start stop ++ dropBytes stop source = dropBytes start source := by
  rcases exists_parts range with ⟨before, inside, after, rfl, rfl, rfl⟩
  have length_eq : byteLength (before ++ inside) - byteLength before = byteLength inside := by
    rw [byteLength_append, Nat.add_sub_cancel_left]
  rw [slice, dropBytes_append, length_eq, takeBytes_append, ← List.append_assoc, dropBytes_append]

theorem dropBytes_dropBytes (range : IsRange source ⟨start, stop⟩) :
    dropBytes (stop - start) (dropBytes start source) = dropBytes stop source := by
  rcases exists_parts range with ⟨before, inside, after, rfl, rfl, rfl⟩
  have length_eq : byteLength (before ++ inside) - byteLength before = byteLength inside := by
    rw [byteLength_append, Nat.add_sub_cancel_left]
  rw [dropBytes_append, length_eq, dropBytes_append, ← List.append_assoc, dropBytes_append]

theorem slice_append_slice (first : IsRange source ⟨start, middle⟩)
    (second : IsRange source ⟨middle, stop⟩) :
    slice source start middle ++ slice source middle stop = slice source start stop := by
  have whole : IsRange source ⟨start, stop⟩ :=
    ⟨Nat.le_trans first.forward second.forward, second.inside, first.startBoundary,
      second.stopBoundary⟩
  apply (List.append_left_inj (dropBytes stop source)).1
  rw [List.append_assoc, slice_append_dropBytes second, slice_append_dropBytes first,
    slice_append_dropBytes whole]

/-- The text of a range with parts of it, in order, replaced. -/
def fill (source : List Char) (start stop : Nat) : List (Span × List Char) → List Char
  | [] => slice source start stop
  | (span, text) :: rest =>
    slice source start span.start ++ text ++ fill source span.stop stop rest

end Text

namespace Edit

/-! ## Stable sorts -/

/-- Two lists with the same edits, in which edits of the same span are in the same order. -/
def Alike (first second : List Edit) : Prop :=
  ∀ span : Span, (first.filter fun edit => decide (edit.span = span)) =
    second.filter fun edit => decide (edit.span = span)

namespace Alike

variable {first second third fourth : List Edit}

theorem refl (edits : List Edit) : Alike edits edits :=
  fun _ => rfl

theorem of_eq (same : first = second) : Alike first second :=
  same ▸ refl first

theorem symm (alike : Alike first second) : Alike second first :=
  fun span => (alike span).symm

theorem trans (alike : Alike first second) (next : Alike second third) : Alike first third :=
  fun span => (alike span).trans (next span)

theorem append (left : Alike first second) (right : Alike third fourth) :
    Alike (first ++ third) (second ++ fourth) := by
  intro span
  rw [List.filter_append, List.filter_append, left span, right span]

/-- Edits may change places with edits of other spans. -/
theorem swap (apart : ∀ edit ∈ first, ∀ other ∈ second, edit.span ≠ other.span) :
    Alike (first ++ second) (second ++ first) := by
  intro span
  rw [List.filter_append, List.filter_append]
  by_cases isFirst : ∃ edit ∈ first, edit.span = span
  · rcases isFirst with ⟨edit, member, rfl⟩
    have none : (second.filter fun other => decide (other.span = edit.span)) = [] := by
      rw [List.filter_eq_nil_iff]
      intro other isOther
      simpa using (apart edit member other isOther).symm
    rw [none, List.append_nil, List.nil_append]
  · have none : (first.filter fun edit => decide (edit.span = span)) = [] := by
      rw [List.filter_eq_nil_iff]
      intro edit member
      simpa using fun isSpan => isFirst ⟨edit, member, isSpan⟩
    rw [none, List.append_nil, List.nil_append]

/-- Edits that were planned later may stand between those of other spans. -/
theorem interleave {last inner later : List Edit}
    (innerApart : ∀ edit ∈ second ++ last, ∀ other ∈ inner, edit.span ≠ other.span)
    (laterApart : ∀ edit ∈ last, ∀ other ∈ later, edit.span ≠ other.span) :
    Alike (first ++ second ++ last ++ (inner ++ later))
      (first ++ inner ++ (second ++ later) ++ last) := by
  have moved := (refl first).append ((swap innerApart).append (refl later))
  have closed := (refl (first ++ inner ++ second)).append (swap laterApart)
  simp only [List.append_assoc] at moved closed ⊢
  exact moved.trans closed

theorem count_eq (alike : Alike first second) (edit : Edit) :
    first.count edit = second.count edit := by
  have counts (edits : List Edit) : edits.count edit =
      (edits.filter fun other => decide (other.span = edit.span)).count edit :=
    (List.count_filter (by simp)).symm
  rw [counts first, counts second, alike edit.span]

theorem perm (alike : Alike first second) : first.Perm second :=
  List.perm_iff_count.2 alike.count_eq

theorem mem_iff (alike : Alike first second) {edit : Edit} : edit ∈ first ↔ edit ∈ second :=
  alike.perm.mem_iff

/-- Lists with the same heads are alike only if their tails are. -/
theorem tail {edit : Edit} (alike : Alike (edit :: first) (edit :: second)) :
    Alike first second := by
  intro span
  have own := alike span
  rw [List.filter_cons, List.filter_cons] at own
  split at own
  · exact List.tail_eq_of_cons_eq own
  · exact own

end Alike

/-- Edits in the order of their places are determined by those of each span. -/
theorem eq_of_alike {first second : List Edit}
    (firstOrdered : first.Pairwise fun edit other => edit.precedes other = true)
    (secondOrdered : second.Pairwise fun edit other => edit.precedes other = true)
    (alike : Alike first second) : first = second := by
  induction first generalizing second with
  | nil => exact alike.perm.nil_eq
  | cons edit rest ih =>
    cases second with
    | nil => exact alike.perm.eq_nil
    | cons other others =>
      -- Each of the two heads stands in the other list, so neither comes first.
      have isOther : other ∈ edit :: rest := alike.mem_iff.2 List.mem_cons_self
      have isEdit : edit ∈ other :: others := alike.mem_iff.1 List.mem_cons_self
      have sameSpan : edit.span = other.span := by
        rcases List.mem_cons.1 isOther with same | isLater
        · rw [same]
        rcases List.mem_cons.1 isEdit with same | isBehind
        · rw [same]
        have before := (List.pairwise_cons.1 firstOrdered).1 other isLater
        have after := (List.pairwise_cons.1 secondOrdered).1 edit isBehind
        rw [precedes_iff] at before after
        rw [Edit.span, Edit.span, Span.mk.injEq]
        omega
      have heads := alike other.span
      simp only [List.filter_cons, sameSpan, decide_true, if_true, List.cons.injEq]
        at heads
      obtain rfl := heads.1
      rw [ih (List.pairwise_cons.1 firstOrdered).2
        (List.pairwise_cons.1 secondOrdered).2 alike.tail]

namespace IsStableSort

variable {planned sorted : List Edit}

theorem alike (sorts : IsStableSort planned sorted) : Alike sorted planned :=
  sorts.stable

theorem unique {other : List Edit} (sorts : IsStableSort planned sorted)
    (also : IsStableSort planned other) : sorted = other :=
  eq_of_alike (sorts.ordered.imp precedes_iff.2) (also.ordered.imp precedes_iff.2)
    (sorts.alike.trans also.alike.symm)

theorem of_alike {other : List Edit} (sorts : IsStableSort planned sorted)
    (alike : Alike other planned) : IsStableSort other sorted :=
  ⟨sorts.ordered, sorts.alike.trans alike.symm⟩

theorem append {others sortedOthers : List Edit} (first : IsStableSort planned sorted)
    (second : IsStableSort others sortedOthers)
    (ordered : ∀ edit ∈ planned, ∀ other ∈ others, edit.precedes other = true) :
    IsStableSort (planned ++ others) (sorted ++ sortedOthers) where
  ordered := by
    rw [List.pairwise_append]
    refine ⟨first.ordered, second.ordered, fun edit isEdit other isOther => ?_⟩
    exact precedes_iff.1 (ordered edit (first.alike.mem_iff.1 isEdit) other
      (second.alike.mem_iff.1 isOther))
  stable := first.alike.append second.alike

end IsStableSort

end Edit

/-! ## Carrying out sorted edits -/

/-- Put a text and lost edits before what comes later. -/
def Edited.behind (later : Edited) (text : List Char) (lost : List Edit) : Edited :=
  ⟨text ++ later.text, lost ++ later.dropped⟩

@[simp]
theorem Edited.behind_behind (later : Edited) (text front : List Char) (lost before : List Edit) :
    (later.behind text lost).behind front before =
      later.behind (front ++ text) (before ++ lost) := by
  simp [behind]

namespace Edit

variable {source : List Char} {start middle stop reached : Nat} {edit : Edit} {rest : List Edit}

/-- What comes of sorted edits from an offset on, up to which others have reached. -/
def carryFrom (source : List Char) (reached : Nat) (sorted : List Edit) : Edited :=
  ⟨splice reached (dropBytes reached source) (select source reached sorted).1,
    (select source reached sorted).2⟩

theorem carryFrom_sortBy (source : List Char) (planned : List Edit) :
    carryFrom source 0 (sortBy precedes planned) = applyEdits source planned := by
  rw [carryFrom, dropBytes_zero]
  rfl

theorem carryFrom_nil (source : List Char) (reached : Nat) :
    carryFrom source reached [] = ⟨dropBytes reached source, []⟩ := rfl

theorem fits_eq_true_iff :
    edit.fits source reached = true ↔ reached ≤ edit.start ∧ IsRange source edit.span := by
  simp only [fits, Bool.and_eq_true, decide_eq_true_eq]
  constructor
  · rintro ⟨⟨⟨behind, forward⟩, startBoundary⟩, stopBoundary⟩
    exact ⟨behind, forward, le_byteLength_of_isBoundary stopBoundary, startBoundary, stopBoundary⟩
  · rintro ⟨behind, forward, _, startBoundary, stopBoundary⟩
    exact ⟨⟨⟨behind, forward⟩, startBoundary⟩, stopBoundary⟩

/-- An edit of a range behind the others is carried out. -/
theorem carryFrom_cons_of_range (gap : IsRange source ⟨reached, edit.start⟩)
    (range : IsRange source edit.span) :
    carryFrom source reached (edit :: rest) =
      (carryFrom source edit.stop rest).behind (slice source reached edit.start ++ edit.text)
        [] := by
  have fits := fits_eq_true_iff.2 ⟨gap.forward, range⟩
  have passed : IsRange source ⟨reached, edit.stop⟩ :=
    ⟨Nat.le_trans gap.forward range.forward, range.inside, gap.startBoundary, range.stopBoundary⟩
  simp only [carryFrom, select, fits, if_true, splice, dropBytes_dropBytes passed,
    Edited.behind, List.nil_append, slice]

/-- An edit that does not fit is lost. -/
theorem carryFrom_cons_of_not_fits (clashes : ¬ edit.fits source reached = true) :
    carryFrom source reached (edit :: rest) = (carryFrom source reached rest).behind [] [edit] := by
  simp only [carryFrom, select, clashes, if_false, Edited.behind, List.nil_append,
    List.singleton_append, Bool.false_eq_true]

/-- What stands before all edits is copied. -/
theorem carryFrom_of_le (gap : IsRange source ⟨reached, start⟩)
    (behind : ∀ edit ∈ rest, start ≤ edit.start) :
    carryFrom source reached rest =
      (carryFrom source start rest).behind (slice source reached start) [] := by
  induction rest with
  | nil =>
    rw [carryFrom_nil, carryFrom_nil, Edited.behind, slice_append_dropBytes gap]
    rfl
  | cons edit rest ih =>
    have reaches := behind edit List.mem_cons_self
    by_cases isRange : IsRange source edit.span
    · have near : IsRange source ⟨start, edit.start⟩ :=
        ⟨reaches, Nat.le_trans isRange.forward isRange.inside, gap.stopBoundary,
          isRange.startBoundary⟩
      have far : IsRange source ⟨reached, edit.start⟩ :=
        ⟨Nat.le_trans gap.forward reaches, near.inside, gap.startBoundary, near.stopBoundary⟩
      rw [carryFrom_cons_of_range far isRange, carryFrom_cons_of_range near isRange,
        Edited.behind_behind, ← List.append_assoc, slice_append_slice gap near]
      rfl
    · have clashes (offset : Nat) : ¬ edit.fits source offset = true :=
        fun fits => isRange (fits_eq_true_iff.1 fits).2
      rw [carryFrom_cons_of_not_fits (clashes reached), carryFrom_cons_of_not_fits (clashes start),
        ih fun other isOther => behind other (List.mem_cons_of_mem _ isOther),
        Edited.behind_behind, Edited.behind_behind]
      simp

/-- Edits that start in what was replaced are lost. -/
theorem carryFrom_append_of_lt {inner : List Edit}
    (covered : ∀ edit ∈ inner, edit.start < reached) :
    carryFrom source reached (inner ++ rest) = (carryFrom source reached rest).behind [] inner := by
  induction inner with
  | nil => rfl
  | cons edit inner ih =>
    have clashes : ¬ edit.fits source reached = true := by
      rw [fits_eq_true_iff]
      have before := covered edit List.mem_cons_self
      omega
    rw [List.cons_append, carryFrom_cons_of_not_fits clashes,
      ih fun other isOther => covered other (List.mem_cons_of_mem _ isOther),
      Edited.behind_behind]
    rfl

/--
Sorted edits of a range put a text in its place and drop some of themselves,
whatever stands before the range and follows behind it.
-/
def Carries (source : List Char) (start stop : Nat) (sorted : List Edit) (text : List Char)
    (dropped : List Edit) : Prop :=
  ∀ reached rest, IsRange source ⟨reached, start⟩ → (∀ edit ∈ rest, stop ≤ edit.start) →
    carryFrom source reached (sorted ++ rest) =
      (carryFrom source stop rest).behind (slice source reached start ++ text) dropped

/--
The edits planned for a range, in the order in which they were planned, put a
text in its place, and some of them are lost.
-/
structure Arranges (source : List Char) (start stop : Nat) (planned : List Edit)
    (text : List Char) (lost : List Edit) : Prop where
  range : IsRange source ⟨start, stop⟩
  inside : ∀ edit ∈ planned,
    start ≤ edit.start ∧ edit.start ≤ edit.stop ∧ edit.stop ≤ stop
  carries : ∃ sorted dropped, IsStableSort planned sorted ∧ dropped.Perm lost ∧
    Carries source start stop sorted text dropped

theorem isStableSort_nil : IsStableSort [] [] :=
  ⟨.nil, fun _ => rfl⟩

theorem isStableSort_singleton (edit : Edit) : IsStableSort [edit] [edit] :=
  ⟨List.pairwise_singleton _ edit, fun _ => rfl⟩

namespace Arranges

variable {planned others lost lostOthers : List Edit} {text textOthers : List Char}

/-- A range without edits is copied. -/
theorem copied (range : IsRange source ⟨start, stop⟩) :
    Arranges source start stop [] (slice source start stop) [] where
  range := range
  inside := nofun
  carries := by
    refine ⟨[], [], isStableSort_nil, .refl _, fun reached rest gap behind => ?_⟩
    have passed : IsRange source ⟨reached, stop⟩ :=
      ⟨Nat.le_trans gap.forward range.forward, range.inside, gap.startBoundary, range.stopBoundary⟩
    rw [List.nil_append, carryFrom_of_le passed behind, slice_append_slice gap range]

/-- A single edit puts its text in place of its range. -/
theorem replaced (range : IsRange source edit.span) :
    Arranges source edit.start edit.stop [edit] edit.text [] where
  range := range
  inside := by
    intro other isOther
    obtain rfl := List.mem_singleton.1 isOther
    exact ⟨Nat.le_refl _, range.forward, Nat.le_refl _⟩
  carries := by
    refine ⟨[edit], [], isStableSort_singleton edit, .refl _, fun reached rest gap _ => ?_⟩
    exact carryFrom_cons_of_range gap range

/-- Edits inside the range of another edit are lost. -/
theorem erased {inner : List Edit} (range : IsRange source edit.span) (covered : ∀ other ∈ inner,
      edit.start < other.start ∧ other.start < edit.stop ∧ other.start ≤ other.stop ∧
        other.stop ≤ edit.stop) :
    Arranges source edit.start edit.stop (edit :: inner) edit.text inner where
  range := range
  inside := by
    intro other isOther
    rcases List.mem_cons.1 isOther with rfl | isInner
    · exact ⟨Nat.le_refl _, range.forward, Nat.le_refl _⟩
    · have bounds := covered other isInner
      exact ⟨Nat.le_of_lt bounds.1, bounds.2.2⟩
  carries := by
    have sorts := isStableSort_sortBy inner
    refine ⟨edit :: sortBy precedes inner, sortBy precedes inner, ?_, sortBy_perm _ _,
      fun reached rest gap _ => ?_⟩
    · apply (isStableSort_singleton edit).append sorts
      intro first isFirst other isOther
      obtain rfl := List.mem_singleton.1 isFirst
      exact precedes_iff.2 (.inl (covered other isOther).1)
    · rw [List.cons_append, carryFrom_cons_of_range gap range,
        carryFrom_append_of_lt fun other isOther =>
          (covered other (mem_sortBy.1 isOther)).2.1,
        Edited.behind_behind]
      simp

/-- Ranges that follow one another are edited apart from each other. -/
theorem append (first : Arranges source start middle planned text lost)
    (second : Arranges source middle stop others textOthers lostOthers) :
    Arranges source start stop (planned ++ others) (text ++ textOthers) (lost ++ lostOthers) where
  range :=
    ⟨Nat.le_trans first.range.forward second.range.forward, second.range.inside,
      first.range.startBoundary, second.range.stopBoundary⟩
  inside := by
    intro edit isEdit
    have forward := first.range.forward
    have further := second.range.forward
    rcases List.mem_append.1 isEdit with isFirst | isSecond
    · have bounds := first.inside edit isFirst
      exact ⟨bounds.1, bounds.2.1, Nat.le_trans bounds.2.2 further⟩
    · have bounds := second.inside edit isSecond
      exact ⟨Nat.le_trans forward bounds.1, bounds.2⟩
  carries := by
    rcases first.carries with ⟨sorted, dropped, sorts, isLost, carries⟩
    rcases second.carries with ⟨sortedOthers, droppedOthers, sortsOthers, isLostOthers,
      carriesOthers⟩
    refine ⟨sorted ++ sortedOthers, dropped ++ droppedOthers, sorts.append sortsOthers ?_,
      isLost.append isLostOthers, fun reached rest gap behind => ?_⟩
    · intro edit isEdit other isOther
      have bounds := first.inside edit isEdit
      have later := second.inside other isOther
      rw [precedes_iff]
      omega
    · have behindFirst : ∀ edit ∈ sortedOthers ++ rest, middle ≤ edit.start := by
        intro edit isEdit
        rcases List.mem_append.1 isEdit with isSecond | isRest
        · exact (second.inside edit (sortsOthers.alike.mem_iff.1 isSecond)).1
        · exact Nat.le_trans second.range.forward (behind edit isRest)
      have touching : IsRange source ⟨middle, middle⟩ :=
        ⟨Nat.le_refl _, first.range.inside, second.range.startBoundary, second.range.startBoundary⟩
      rw [List.append_assoc, carries reached _ gap behindFirst,
        carriesOthers middle rest touching behind, Edited.behind_behind, slice_self]
      simp

/-- The order in which edits of different spans are planned does not matter. -/
theorem reorder (arranged : Arranges source start stop planned text lost)
    (alike : Alike others planned) : Arranges source start stop others text lost where
  range := arranged.range
  inside := fun edit isEdit => arranged.inside edit (alike.mem_iff.1 isEdit)
  carries := by
    rcases arranged.carries with ⟨sorted, dropped, sorts, isLost, carries⟩
    exact ⟨sorted, dropped, sorts.of_alike alike, isLost, carries⟩

/-- A range of which both ends are replaced, and what is between them is edited by itself. -/
theorem enclosed {first last : Nat} (arranged : Arranges source start stop planned text lost)
    (before : IsRange source ⟨first, start⟩) (behind : IsRange source ⟨stop, last⟩)
    (early : ∀ edit ∈ planned, edit.start < last) (opening closing : List Char) :
    Arranges source first last
      ([Edit.replace ⟨first, start⟩ opening, .replace ⟨stop, last⟩ closing] ++ planned)
      (opening ++ text ++ closing) lost := by
  have opened : Arranges source first start [.replace ⟨first, start⟩ opening] opening [] :=
    replaced (show IsRange source (Edit.replace ⟨first, start⟩ opening).span from before)
  have closed : Arranges source stop last [.replace ⟨stop, last⟩ closing] closing [] :=
    replaced (show IsRange source (Edit.replace ⟨stop, last⟩ closing).span from behind)
  have whole := (opened.append arranged).append closed
  rw [List.nil_append, List.append_nil] at whole
  -- Only an empty edit at the very end could have the span of the second edit.
  have swapped : Alike ([Edit.replace ⟨stop, last⟩ closing] ++ planned)
      (planned ++ [Edit.replace ⟨stop, last⟩ closing]) := by
    apply Alike.swap
    intro edit isEdit other isOther same
    obtain rfl := List.mem_singleton.1 isEdit
    have bounds := arranged.inside other isOther
    have starts := early other isOther
    simp only [Edit.span, Edit.replace, Span.mk.injEq] at same
    omega
  apply whole.reorder
  rw [List.append_assoc]
  exact (Alike.refl [Edit.replace ⟨first, start⟩ opening]).append swapped

/-- Parts of a range that are edited each by itself. -/
theorem fill {α : Type} (parts : List α) (spanOf : α → Span) {plan : α → List Edit}
    {textOf : α → List Char} {lostIn : α → List Edit}
    (range : IsRange source ⟨start, stop⟩)
    (inside : ∀ part ∈ parts, start ≤ (spanOf part).start ∧ (spanOf part).stop ≤ stop)
    (ordered : parts.Pairwise fun part other => (spanOf part).stop ≤ (spanOf other).start)
    (each : ∀ part ∈ parts, Arranges source (spanOf part).start (spanOf part).stop
      (plan part) (textOf part) (lostIn part)) :
    Arranges source start stop (parts.flatMap plan)
      (Text.fill source start stop (parts.map fun part => (spanOf part, textOf part)))
      (parts.flatMap lostIn) := by
  induction parts generalizing start with
  | nil => exact copied range
  | cons part rest ih =>
    have own := each part List.mem_cons_self
    have bounds := inside part List.mem_cons_self
    rcases List.pairwise_cons.1 ordered with ⟨behind, restOrdered⟩
    have before : IsRange source ⟨start, (spanOf part).start⟩ :=
      ⟨bounds.1, Nat.le_trans own.range.forward own.range.inside, range.startBoundary,
        own.range.startBoundary⟩
    have after : IsRange source ⟨(spanOf part).stop, stop⟩ :=
      ⟨bounds.2, range.inside, own.range.stopBoundary, range.stopBoundary⟩
    have restArranged := ih after (fun other isOther =>
        ⟨behind other isOther, (inside other (List.mem_cons_of_mem _ isOther)).2⟩)
      restOrdered fun other isOther => each other (List.mem_cons_of_mem _ isOther)
    exact ((copied before).append own).append restArranged

/-- What the edits planned for the whole source come to. -/
theorem applyEdits (arranged : Arranges source 0 (byteLength source) planned text lost) :
    (Codemod.applyEdits source planned).text = text ∧
      (Codemod.applyEdits source planned).dropped.Perm lost := by
  rcases arranged.carries with ⟨sorted, dropped, sorts, isLost, carries⟩
  have isSorted : sorted = sortBy precedes planned := sorts.unique (isStableSort_sortBy planned)
  have start : IsRange source ⟨0, 0⟩ :=
    ⟨Nat.le_refl _, Nat.zero_le _, arranged.range.startBoundary, arranged.range.startBoundary⟩
  have applied := carries 0 [] start nofun
  rw [List.append_nil, isSorted, carryFrom_sortBy, carryFrom_nil, dropBytes_byteLength,
    slice_self] at applied
  rw [applied]
  simpa [Edited.behind] using isLost

end Arranges

end Edit

end Codemod
