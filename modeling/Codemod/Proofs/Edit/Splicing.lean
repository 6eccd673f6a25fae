import Codemod.Edit

/-!
# One forward pass and one edit at a time

Edits are sorted, the ones that do not fit are dropped, and the others are
carried out in one pass over the source.  This module says the same without
the pass.  `Keeps` goes through the sorted edits and keeps an edit when it may
follow the ones kept before it; `replaceFromLast?` carries out the kept edits
on the whole text, one after the other and the last one first, so that an edit
never moves the place of the next one.  Both the pass and the replacements are
partial here: a range that leaves the text or cuts a character has no
characters, and the main theorem says that this never happens.
-/

namespace Codemod

section Sorting

variable {α : Type} {notAfter : α → α → Bool} {accepts : α → Bool}

theorem filter_insertBy (item : α) (items : List α)
    (level : ∀ other, accepts item = true → accepts other = true → notAfter item other = true) :
    (insertBy notAfter item items).filter accepts = (item :: items).filter accepts := by
  induction items with
  | nil => rfl
  | cons first rest ih =>
    rw [insertBy]
    split
    · rfl
    · next passed =>
      rw [List.filter_cons, ih]
      cases isItem : accepts item with
      | false => simp [List.filter_cons, isItem]
      | true =>
        have notFirst : accepts first = false := by
          apply Bool.eq_false_iff.2
          intro isFirst
          exact passed (level first isItem isFirst)
        simp [isItem, notFirst]

/-- Items that do not exceed one another keep their order. -/
theorem filter_sortBy (items : List α)
    (level : ∀ first second, accepts first = true → accepts second = true →
      notAfter first second = true) :
    (sortBy notAfter items).filter accepts = items.filter accepts := by
  induction items with
  | nil => rfl
  | cons first rest ih =>
    calc (sortBy notAfter (first :: rest)).filter accepts
        = (first :: sortBy notAfter rest).filter accepts :=
          filter_insertBy first _ (level first)
      _ = (first :: rest).filter accepts := by
          rw [List.filter_cons, ih, ← List.filter_cons]

end Sorting

namespace Text

variable {text : List Char} {offset : Nat}

theorem eq_nil_of_byteLength (empty : byteLength text = 0) : text = [] := by
  cases text with
  | nil => rfl
  | cons char rest =>
    have positive : 0 < char.utf8Size := Char.utf8Size_pos char
    rw [byteLength_cons] at empty
    omega

theorem isBoundary_iff : isBoundary text offset = true ↔
      ∃ before after, text = before ++ after ∧ byteLength before = offset := by
  rw [isBoundary, Option.isSome_iff_exists]
  constructor
  · rintro ⟨⟨before, after⟩, parts⟩
    exact ⟨before, after, cut_eq_some parts⟩
  · rintro ⟨before, after, rfl, rfl⟩
    exact ⟨(before, after), cut_append before after⟩

theorem le_byteLength_of_isBoundary (boundary : isBoundary text offset = true) :
    offset ≤ byteLength text := by
  obtain ⟨before, after, rfl, rfl⟩ := isBoundary_iff.1 boundary
  rw [byteLength_append]
  exact Nat.le_add_right _ _

/-- A boundary of a text that lies in its second part is one of that part. -/
theorem exists_split {front : List Char} (boundary : isBoundary (front ++ text) offset = true)
    (beyond : byteLength front ≤ offset) :
    ∃ middle after, text = middle ++ after ∧ offset = byteLength front + byteLength middle := by
  obtain ⟨before, after, joined, rfl⟩ := isBoundary_iff.1 boundary
  rcases List.append_eq_append_iff.1 joined with
    ⟨middle, rfl, rfl⟩ | ⟨excess, rfl, rfl⟩
  · exact ⟨middle, _, rfl, byteLength_append front middle⟩
  · rw [byteLength_append] at beyond
    have none_ : excess = [] := eq_nil_of_byteLength (by omega)
    subst none_
    exact ⟨[], _, rfl, by simp⟩

theorem takeBytes_append (before after : List Char) :
    takeBytes (byteLength before) (before ++ after) = before := by
  induction before with
  | nil =>
    cases after with
    | nil => rfl
    | cons char rest =>
      have positive : 0 < char.utf8Size := Char.utf8Size_pos char
      simp only [byteLength_nil, List.nil_append, takeBytes]
      rw [if_neg (by omega)]
  | cons char rest ih =>
    simp only [byteLength_cons, List.cons_append, takeBytes, Nat.le_add_right,
      if_true, Nat.add_sub_cancel_left, ih]

theorem dropBytes_append (before after : List Char) :
    dropBytes (byteLength before) (before ++ after) = after := by
  have whole := takeBytes_append_dropBytes (byteLength before) (before ++ after)
  rw [takeBytes_append] at whole
  exact List.append_cancel_left whole

/-- The characters of a range, if it is one of the text and cuts no character. -/
def range? (text : List Char) (span : Span) : Option (List Char) := do
  let (upTo, _) ← cut span.stop text
  let (_, inside) ← cut span.start upTo
  return inside

theorem range?_append (before inside after : List Char) : range? (before ++ inside ++ after)
      ⟨byteLength before, byteLength (before ++ inside)⟩ = some inside := by
  simp only [range?, cut_append, Option.bind_eq_bind, Option.bind_some]
  rfl

end Text

namespace Edit

open Text

/-! ## What is kept -/

/-- Edits in the order of their starts and then of their ends, in a stable way. -/
structure IsStableSort (edits sorted : List Edit) : Prop where
  ordered : sorted.Pairwise fun first second =>
    first.start < second.start ∨
      first.start = second.start ∧ first.stop ≤ second.stop
  stable : ∀ span : Span,
    (sorted.filter fun edit => decide (edit.span = span)) =
      edits.filter fun edit => decide (edit.span = span)

/-- An edit is one of the text and starts where the last kept edit ends or later. -/
structure MayFollow (source : List Char) (kept : List Edit) (edit : Edit) : Prop where
  forward : edit.start ≤ edit.stop
  inside : edit.stop ≤ byteLength source
  startBoundary : isBoundary source edit.start = true
  stopBoundary : isBoundary source edit.stop = true
  apart : ∀ last, kept.getLast? = some last → last.stop ≤ edit.start

/-- After the edits `before` were kept, some edits are kept and the others dropped. -/
inductive Keeps (source : List Char) :
    (before edits kept dropped : List Edit) → Prop
  | nil {before : List Edit} : Keeps source before [] [] []
  | keep {before edits kept dropped : List Edit} {edit : Edit}
      (follows : MayFollow source before edit)
      (later : Keeps source (before ++ [edit]) edits kept dropped) :
      Keeps source before (edit :: edits) (edit :: kept) dropped
  | drop {before edits kept dropped : List Edit} {edit : Edit}
      (clashes : ¬ MayFollow source before edit)
      (later : Keeps source before edits kept dropped) :
      Keeps source before (edit :: edits) kept (edit :: dropped)

/-- Where the last kept edit ends. -/
def reach (kept : List Edit) : Nat :=
  (kept.getLast?.map Edit.stop).getD 0

theorem reach_append (kept : List Edit) (edit : Edit) : reach (kept ++ [edit]) = edit.stop := by
  simp [reach]

variable {kept before edits : List Edit} {source front text : List Char}

theorem reach_le_iff {offset : Nat} : reach kept ≤ offset ↔
      ∀ last, kept.getLast? = some last → last.stop ≤ offset := by
  rw [reach]
  cases kept.getLast? <;> simp

theorem precedes_iff {first second : Edit} :
    first.precedes second = true ↔
      first.start < second.start ∨
        first.start = second.start ∧ first.stop ≤ second.stop := by
  simp [precedes]

theorem isStableSort_sortBy (edits : List Edit) : IsStableSort edits (sortBy precedes edits) where
  ordered := by
    have sorted : (sortBy precedes edits).Pairwise fun first second =>
        precedes first second = true := by
      apply sortBy_pairwise
      · intro first second later
        rw [Bool.eq_false_iff, ne_eq, precedes_iff] at later
        rw [precedes_iff]
        omega
      · intro first second third earlier later
        rw [precedes_iff] at *
        omega
    exact sorted.imp precedes_iff.1
  stable := by
    intro span
    apply filter_sortBy
    intro first second isFirst isSecond
    have same : first.span = second.span :=
      (of_decide_eq_true isFirst).trans (of_decide_eq_true isSecond).symm
    simp only [Edit.span, Span.mk.injEq] at same
    rw [precedes_iff]
    omega

theorem fits_iff {edit : Edit} :
    edit.fits source (reach before) = true ↔ MayFollow source before edit := by
  simp only [fits, Bool.and_eq_true, decide_eq_true_eq, reach_le_iff]
  constructor
  · rintro ⟨⟨⟨apart, forward⟩, startBoundary⟩, stopBoundary⟩
    exact ⟨forward, le_byteLength_of_isBoundary stopBoundary, startBoundary, stopBoundary, apart⟩
  · rintro ⟨forward, _, startBoundary, stopBoundary, apart⟩
    exact ⟨⟨⟨apart, forward⟩, startBoundary⟩, stopBoundary⟩

theorem keeps_select (source : List Char) (before edits : List Edit) :
    Keeps source before edits (select source (reach before) edits).1
      (select source (reach before) edits).2 := by
  induction edits generalizing before with
  | nil => exact .nil
  | cons edit rest ih =>
    rw [select]
    split
    · next follows =>
      have later := ih (before ++ [edit])
      rw [reach_append] at later
      exact .keep (fits_iff.1 follows) later
    · next clashes =>
      apply Keeps.drop
      · intro follows
        exact clashes (fits_iff.2 follows)
      · exact ih before

/-! ## What the kept edits are like -/

/-- Edits that replace, one after the other, parts of a text that stands behind another. -/
inductive IsRow : (front text : List Char) → List Edit → Prop
  | nil {front text : List Char} : IsRow front text []
  | cons {front copied removed after new : List Char} {edits : List Edit}
      (later : IsRow (front ++ copied ++ removed) after edits) :
      IsRow front (copied ++ removed ++ after)
        (⟨byteLength (front ++ copied), byteLength (front ++ copied ++ removed),
          new⟩ :: edits)

/-- An edit that may follow others divides the text behind them. -/
theorem MayFollow.exists_split {edit : Edit} (follows : MayFollow (front ++ text) before edit)
    (reached : byteLength front ≤ edit.start) :
    ∃ copied removed after, text = copied ++ removed ++ after ∧
      edit = ⟨byteLength (front ++ copied), byteLength (front ++ copied ++ removed),
        edit.text⟩ := by
  obtain ⟨copied, rest, rfl, starts⟩ := Text.exists_split follows.startBoundary reached
  have stopBoundary := follows.stopBoundary
  rw [← List.append_assoc] at stopBoundary
  rw [← byteLength_append] at starts
  obtain ⟨removed, after, rfl, stops⟩ := Text.exists_split stopBoundary (starts ▸ follows.forward)
  rw [← byteLength_append] at stops
  refine ⟨copied, removed, after, by simp, ?_⟩
  rw [← starts, ← stops]

theorem Keeps.isRow {dropped : List Edit} (keeps : Keeps source before edits kept dropped)
    (isSource : source = front ++ text) (reached : reach before = byteLength front) :
    IsRow front text kept := by
  induction keeps generalizing front text with
  | nil => exact .nil
  | @keep before edits kept dropped edit follows _ ih =>
    subst isSource
    have apart : byteLength front ≤ edit.start := reached ▸ reach_le_iff.2 follows.apart
    obtain ⟨copied, removed, after, rfl, isEdit⟩ := follows.exists_split apart
    rw [isEdit]
    apply IsRow.cons
    apply ih
    · simp
    · rw [reach_append, isEdit]
  | drop _ _ ih => exact ih isSource reached

theorem Keeps.sublist {dropped : List Edit} (keeps : Keeps source before edits kept dropped) :
    kept.Sublist edits := by
  induction keeps with
  | nil => exact .slnil
  | keep _ _ ih => exact ih.cons_cons _
  | drop _ _ ih => exact ih.cons _

theorem IsRow.le_start (row : IsRow front text edits) :
    ∀ edit ∈ edits, byteLength front ≤ edit.start := by
  induction row with
  | nil => nofun
  | cons _ ih =>
    intro edit member
    rcases List.mem_cons.1 member with rfl | isLater
    · simp
    · have beyond := ih edit isLater
      simp only [byteLength_append] at beyond
      omega

theorem IsRow.pairwise (row : IsRow front text edits) :
    edits.Pairwise fun first second => first.stop ≤ second.start := by
  induction row with
  | nil => exact .nil
  | cons later ih => exact .cons later.le_start ih

/-! ## Ways to carry out kept edits -/

/-- The ranges of the source that a forward pass copies. -/
def copiedRanges (length : Nat) : (reached : Nat) → List Edit → List Span
  | reached, [] => [⟨reached, length⟩]
  | reached, edit :: rest => ⟨reached, edit.start⟩ :: copiedRanges length edit.stop rest

/-- The ranges that a forward pass copies with the new texts between them. -/
def copyForward? (source : List Char) : (reached : Nat) → List Edit → Option (List Char)
  | reached, [] => range? source ⟨reached, byteLength source⟩
  | reached, edit :: rest => do
    let copied ← range? source ⟨reached, edit.start⟩
    let later ← copyForward? source edit.stop rest
    return copied ++ edit.text ++ later

/-- A text with a single edit carried out. -/
def replaceIn? (text : List Char) (edit : Edit) : Option (List Char) := do
  let (before, _) ← cut edit.start text
  let (_, after) ← cut edit.stop text
  return before ++ edit.text ++ after

/-- A text with edits carried out one at a time, from the last to the first. -/
def replaceFromLast? (source : List Char) (edits : List Edit) : Option (List Char) :=
  edits.foldr (fun edit text => text.bind fun text => replaceIn? text edit)
    (some source)

/-- A range lies in a text and cuts no character. -/
structure IsRange (source : List Char) (span : Span) : Prop where
  forward : span.start ≤ span.stop
  inside : span.stop ≤ byteLength source
  startBoundary : isBoundary source span.start = true
  stopBoundary : isBoundary source span.stop = true

theorem isRange_append (before inside after : List Char) : IsRange (before ++ inside ++ after)
      ⟨byteLength before, byteLength (before ++ inside)⟩ where
  forward := by simp
  inside := by simp
  startBoundary := isBoundary_iff.2 ⟨before, inside ++ after, by simp, rfl⟩
  stopBoundary := isBoundary_iff.2 ⟨before ++ inside, after, rfl, rfl⟩

theorem splice_cons (front copied removed after text : List Char) (edits : List Edit) :
    splice (byteLength front) (copied ++ removed ++ after)
        (⟨byteLength (front ++ copied), byteLength (front ++ copied ++ removed), text⟩ :: edits) =
      copied ++ text ++ splice (byteLength (front ++ copied ++ removed)) after edits := by
  have start : byteLength (front ++ copied) - byteLength front = byteLength copied := by
    rw [byteLength_append]
    omega
  have stop : byteLength (front ++ copied ++ removed) - byteLength front =
      byteLength (copied ++ removed) := by
    simp only [byteLength_append]
    omega
  rw [splice, start, stop, dropBytes_append, List.append_assoc copied, takeBytes_append]

/-- A single edit puts its text in place of a range. -/
theorem applyEdits_singleton (before removed after text : List Char) :
    applyEdits (before ++ removed ++ after)
        [⟨byteLength before, byteLength (before ++ removed), text⟩] =
      ⟨before ++ text ++ after, []⟩ := by
  have range := isRange_append before removed after
  have fits : Edit.fits (before ++ removed ++ after) 0
      ⟨byteLength before, byteLength (before ++ removed), text⟩ = true := by
    simp only [Edit.fits, Bool.and_eq_true, decide_eq_true_eq]
    exact ⟨⟨⟨Nat.zero_le _, range.forward⟩, range.startBoundary⟩, range.stopBoundary⟩
  have spliced := splice_cons [] before removed after text []
  simp only [List.nil_append, byteLength_nil] at spliced
  change Edited.mk (splice 0 _ (select _ 0 [_]).1) (select _ 0 [_]).2 = _
  rw [select, if_pos fits]
  exact congrArg (Edited.mk · []) spliced

theorem IsRow.isRange (row : IsRow front text edits) :
    ∀ span ∈ copiedRanges (byteLength (front ++ text)) (byteLength front) edits,
      IsRange (front ++ text) span := by
  induction row with
  | @nil front text =>
    intro span member
    rw [copiedRanges, List.mem_singleton] at member
    subst member
    simpa using isRange_append front text []
  | @cons front copied removed after new edits _ ih =>
    intro span member
    rw [copiedRanges, List.mem_cons] at member
    rcases member with rfl | isLater
    · simpa using isRange_append front copied (removed ++ after)
    · simp only [← List.append_assoc] at isLater ⊢
      exact ih span isLater

/-- The pass copies the ranges between the edits. -/
theorem IsRow.copyForward? (row : IsRow front text edits) :
    Edit.copyForward? (front ++ text) (byteLength front) edits =
      some (splice (byteLength front) text edits) := by
  induction row with
  | @nil front text =>
    rw [Edit.copyForward?, splice]
    simpa using range?_append front text []
  | @cons front copied removed after new edits _ ih =>
    have copies := range?_append front copied (removed ++ after)
    simp only [← List.append_assoc] at copies ih ⊢
    rw [Edit.copyForward?, copies, ih, splice_cons]
    rfl

theorem replaceIn?_append (before removed after text : List Char) :
    replaceIn? (before ++ removed ++ after)
        ⟨byteLength before, byteLength (before ++ removed), text⟩ =
      some (before ++ text ++ after) := by
  have starts : cut (byteLength before) (before ++ removed ++ after) =
      some (before, removed ++ after) := by
    rw [List.append_assoc, cut_append]
  rw [replaceIn?, starts, cut_append]
  rfl

/-- Nothing in front of a row changes while the row is carried out. -/
theorem IsRow.replaceFromLast? (row : IsRow front text edits) :
    Edit.replaceFromLast? (front ++ text) edits =
      some (front ++ splice (byteLength front) text edits) := by
  induction row with
  | @nil front text => rfl
  | @cons front copied removed after new edits _ ih =>
    simp only [← List.append_assoc] at ih ⊢
    calc Edit.replaceFromLast? (front ++ copied ++ removed ++ after) (⟨_, _, new⟩ :: edits)
        = (Edit.replaceFromLast? (front ++ copied ++ removed ++ after) edits).bind
            fun text => replaceIn? text ⟨_, _, new⟩ := rfl
      _ = some (front ++ copied ++ new ++
            splice (byteLength (front ++ copied ++ removed)) after edits) := by
          rw [ih, Option.bind_some, replaceIn?_append]
      _ = some (front ++ splice (byteLength front) (copied ++ removed ++ after)
            (⟨_, _, new⟩ :: edits)) := by
          rw [splice_cons]
          simp

/--
The edits are sorted stably, and of the sorted ones exactly those are kept
that may follow the ones kept before them.  The kept edits do not overlap, the
forward pass copies only ranges of the source, and its result is the source
with the kept edits carried out one at a time from the last to the first.
-/
theorem applyEdits_eq_replacing_from_last (source : List Char) (edits : List Edit) :
    ∃ sorted kept,
      IsStableSort edits sorted ∧
      Keeps source [] sorted kept (applyEdits source edits).dropped ∧
      (kept.Pairwise fun first second =>
        first.precedes second = true ∧ first.stop ≤ second.start) ∧
      (∀ span ∈ copiedRanges (byteLength source) 0 kept, IsRange source span) ∧
      copyForward? source 0 kept = some (applyEdits source edits).text ∧
      replaceFromLast? source kept = some (applyEdits source edits).text := by
  have sorts := isStableSort_sortBy edits
  have keeps := keeps_select source [] (sortBy precedes edits)
  have row := keeps.isRow (List.nil_append source).symm rfl
  refine ⟨sortBy precedes edits, (select source 0 (sortBy precedes edits)).1,
    sorts, keeps, ?_, ?_, ?_, ?_⟩
  · have ordered := (sorts.ordered.sublist keeps.sublist).imp precedes_iff.2
    exact ordered.and row.pairwise
  · exact row.isRange
  · exact row.copyForward?
  · exact row.replaceFromLast?

end Edit

end Codemod
