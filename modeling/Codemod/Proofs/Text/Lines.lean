import Codemod.Proofs.Edit.Arrangement
import Codemod.Text.Lines

/-!
# Where lines start

A line starts behind a line feed, and it has ink if some byte before the next line
feed is no white space.  The starts of lines within a range are exactly those of lines
that have ink in the range (`mem_lineStartsWithin_iff`), so none of them lies in a
range that has no line feed (`le_or_lt_of_not_isMultiline`).
-/

namespace Codemod.Text

open Edit

/-- The bytes of the UTF-8 form of a text. -/
def bytes (text : List Char) : List UInt8 :=
  text.flatMap String.utf8EncodeChar

/-- The bytes of ASCII white space. -/
def isBlankByte (byte : UInt8) : Bool :=
  byte == 32 || byte == 9 || byte == 10 || byte == 12 || byte == 13

/-- An offset that cuts no character: one between characters, or one past the end. -/
def IsOffset (text : List Char) (offset : Nat) : Prop :=
  isBoundary text offset = true ∨ byteLength text ≤ offset

/-- Something other than white space stands before the first line feed. -/
def Inked (bytes : List UInt8) : Prop :=
  ∃ (index : Nat) (byte : UInt8), bytes[index]? = some byte ∧ isBlankByte byte = false ∧
    ∀ earlier < index, bytes[earlier]? ≠ some 10

/-- What is asked of the start of a line to be among those within a range. -/
structure StartsInkedLine (text : List Char) (start stop line : Nat) : Prop where
  behind : start < line
  before : line < min stop (bytes text).length
  feed : (bytes text)[line - 1]? = some 10
  /-- The line has ink before the end of the range. -/
  ink : Inked (((bytes text).take stop).drop line)

variable {text : List Char} {char : Char} {start stop line offset count : Nat}

theorem slice_append (before inside after : List Char) :
    slice (before ++ (inside ++ after)) (byteLength before) (byteLength (before ++ inside)) =
      inside := by
  have length_eq : byteLength (before ++ inside) - byteLength before = byteLength inside := by
    rw [byteLength_append, Nat.add_sub_cancel_left]
  rw [slice, length_eq, dropBytes_append, takeBytes_append]

theorem length_bytes (text : List Char) : (bytes text).length = byteLength text := by
  induction text with
  | nil => rfl
  | cons char rest ih =>
    rw [bytes, List.flatMap_cons, List.length_append, String.length_utf8EncodeChar,
      byteLength_cons, ← ih, bytes]

theorem bytes_append (left right : List Char) : bytes (left ++ right) = bytes left ++ bytes right :=
  List.flatMap_append

/-- A character is one byte of its own number, or its bytes are none of the ASCII ones. -/
theorem utf8EncodeChar_cases (char : Char) :
    char.toNat < 128 ∧ String.utf8EncodeChar char = [UInt8.ofNat char.toNat] ∨
      128 ≤ char.toNat ∧ ∀ byte ∈ String.utf8EncodeChar char, 128 ≤ byte.toNat := by
  have isNat : char.val.toNat = char.toNat := rfl
  simp only [String.utf8EncodeChar, isNat]
  split
  · next small => exact Or.inl ⟨by omega, rfl⟩
  · next large =>
    refine Or.inr ⟨by omega, fun byte member => ?_⟩
    split at member
    · simp only [List.mem_cons, List.not_mem_nil, or_false] at member
      rcases member with rfl | rfl <;> simp only [UInt8.toNat_ofNat'] <;> omega
    · split at member
      · simp only [List.mem_cons, List.not_mem_nil, or_false] at member
        rcases member with rfl | rfl | rfl <;> simp only [UInt8.toNat_ofNat'] <;> omega
      · simp only [List.mem_cons, List.not_mem_nil, or_false] at member
        rcases member with rfl | rfl | rfl | rfl <;> simp only [UInt8.toNat_ofNat'] <;> omega

theorem ofNat_toNat_eq_iff {other : Char} (small : char.toNat < 128)
    (isSmall : other.toNat < 128) :
    UInt8.ofNat char.toNat = UInt8.ofNat other.toNat ↔ char = other := by
  rw [← UInt8.toNat_inj, UInt8.toNat_ofNat', UInt8.toNat_ofNat', Nat.mod_eq_of_lt (by omega),
    Nat.mod_eq_of_lt (by omega), Char.toNat_inj]

theorem isBlankByte_ofNat (small : char.toNat < 128) :
    isBlankByte (UInt8.ofNat char.toNat) = isAsciiBlank char := by
  have same (other : Char) (isSmall : other.toNat < 128) :
      (UInt8.ofNat char.toNat == UInt8.ofNat other.toNat) = (char == other) := by
    rw [Bool.eq_iff_iff, beq_iff_eq, beq_iff_eq, ofNat_toNat_eq_iff small isSmall]
  rw [isAsciiBlank, ← same ' ' (by decide), ← same '\t' (by decide), ← same '\n' (by decide),
    ← same '\x0c' (by decide), ← same '\r' (by decide)]
  rfl

/-- A character that is no ASCII one is neither white space nor a line feed. -/
theorem isAsciiBlank_of_le (large : 128 ≤ char.toNat) : isAsciiBlank char = false := by
  have other (small : Char) (isSmall : small.toNat < 128) : (char == small) = false := by
    rw [beq_eq_false_iff_ne]
    rintro rfl
    omega
  simp [isAsciiBlank, other ' ' (by decide), other '\t' (by decide), other '\n' (by decide),
    other '\x0c' (by decide), other '\r' (by decide)]

theorem isBlankByte_of_le {byte : UInt8} (large : 128 ≤ byte.toNat) :
    isBlankByte byte = false ∧ byte ≠ 10 := by
  have other (small : UInt8) (isSmall : small.toNat < 128) : byte ≠ small := by
    rintro rfl
    omega
  refine ⟨?_, other 10 (by decide)⟩
  simp [isBlankByte, other 32 (by decide), other 9 (by decide), other 10 (by decide),
    other 12 (by decide), other 13 (by decide)]

theorem inked_cons {byte : UInt8} {rest : List UInt8} :
    Inked (byte :: rest) ↔ byte ≠ 10 ∧ (isBlankByte byte = false ∨ Inked rest) := by
  constructor
  · rintro ⟨index, ink, isInk, notBlank, noFeed⟩
    cases index with
    | zero =>
      cases isInk
      refine ⟨?_, Or.inl notBlank⟩
      rintro rfl
      cases notBlank
    | succ index =>
      exact ⟨fun isFeed => noFeed 0 (Nat.succ_pos _) (isFeed ▸ rfl),
        Or.inr ⟨index, ink, isInk, notBlank, fun earlier before =>
          noFeed (earlier + 1) (Nat.succ_lt_succ before)⟩⟩
  · rintro ⟨notFeed, notBlank | ⟨index, ink, isInk, notBlank, noFeed⟩⟩
    · exact ⟨0, byte, rfl, notBlank, fun _ before => absurd before (Nat.not_lt_zero _)⟩
    · refine ⟨index + 1, ink, isInk, notBlank, fun earlier before => ?_⟩
      cases earlier with
      | zero => simpa using notFeed
      | succ earlier => exact noFeed earlier (Nat.lt_of_succ_lt_succ before)

theorem hasInk_cons (char : Char) (rest : List Char) :
    hasInk (char :: rest) = (char != '\n' && (!isAsciiBlank char || hasInk rest)) := by
  rw [hasInk, List.takeWhile_cons]
  cases char != '\n' <;> rfl

/-- A first line has ink if its bytes do. -/
theorem hasInk_iff (text : List Char) : hasInk text = true ↔ Inked (bytes text) := by
  induction text with
  | nil =>
    refine ⟨fun isInked => (by cases isInked), ?_⟩
    rintro ⟨index, byte, isByte, _⟩
    cases isByte
  | cons char rest ih =>
    rw [hasInk_cons, bytes, List.flatMap_cons, ← bytes]
    rcases utf8EncodeChar_cases char with ⟨small, isByte⟩ | ⟨large, areLarge⟩
    · have isFeed := ofNat_toNat_eq_iff small (show '\n'.toNat < 128 by decide)
      rw [isByte, List.singleton_append, inked_cons, isBlankByte_ofNat small,
        ← ih]
      simp [← isFeed]
    · obtain ⟨first, others, isFirst⟩ :=
        List.exists_cons_of_ne_nil (String.utf8EncodeChar_ne_nil (c := char))
      have ⟨notBlank, notFeed⟩ := isBlankByte_of_le (areLarge first (by simp [isFirst]))
      have notBreak : char ≠ '\n' := by
        rintro rfl
        exact absurd large (by decide)
      simp [isFirst, inked_cons, notBlank, notFeed, isAsciiBlank_of_le large, notBreak]

/-- A byte that is a line feed is one of the characters. -/
theorem eq_feed_of_mem (isFeed : 10 ∈ String.utf8EncodeChar char) : char = '\n' := by
  rcases utf8EncodeChar_cases char with ⟨small, isByte⟩ | ⟨_, areLarge⟩
  · rw [isByte, List.mem_singleton] at isFeed
    exact (ofNat_toNat_eq_iff small (show '\n'.toNat < 128 by decide)).1 isFeed.symm
  · exact absurd rfl (isBlankByte_of_le (areLarge 10 isFeed)).2

/-- A byte that is a line feed stands behind whole characters. -/
theorem exists_break_of_feed {index : Nat} (isFeed : (bytes text)[index]? = some 10) :
    ∃ left right, text = left ++ '\n' :: right ∧ index = byteLength left := by
  induction text generalizing index with
  | nil => cases isFeed
  | cons char rest ih =>
    rw [bytes, List.flatMap_cons, List.getElem?_append, String.length_utf8EncodeChar] at isFeed
    split at isFeed
    · next isOwn =>
      obtain rfl := eq_feed_of_mem (List.mem_of_getElem? isFeed)
      exact ⟨[], rest, rfl, Nat.lt_one_iff.1 isOwn⟩
    · obtain ⟨left, right, rfl, isIndex⟩ := ih isFeed
      exact ⟨char :: left, right, rfl, by rw [byteLength_cons]; omega⟩

/-- A line feed with ink behind it is the first character or stands behind it. -/
theorem exists_feed_cons_iff {rest : List Char} :
    (∃ index, line = offset + index + 1 ∧ (bytes (char :: rest))[index]? = some 10 ∧
      Inked ((bytes (char :: rest)).drop (index + 1))) ↔
    (char = '\n' ∧ hasInk rest = true) ∧ line = offset + char.utf8Size ∨
      ∃ index, line = offset + char.utf8Size + index + 1 ∧ (bytes rest)[index]? = some 10 ∧
        Inked ((bytes rest).drop (index + 1)) := by
  have isBytes : bytes (char :: rest) = String.utf8EncodeChar char ++ bytes rest :=
    List.flatMap_cons
  have size := String.length_utf8EncodeChar char
  have later (index : Nat) :
      (bytes (char :: rest))[char.utf8Size + index]? = (bytes rest)[index]? ∧
        (bytes (char :: rest)).drop (char.utf8Size + index + 1) =
          (bytes rest).drop (index + 1) := by
    rw [isBytes, ← size, List.getElem?_append_right (Nat.le_add_right _ _),
      Nat.add_sub_cancel_left, Nat.add_assoc, List.drop_length_add_append]
    exact ⟨rfl, rfl⟩
  constructor
  · rintro ⟨index, rfl, isFeed, inked⟩
    rcases Nat.lt_or_ge index char.utf8Size with isOwn | isLater
    · rw [isBytes, List.getElem?_append_left (by omega)] at isFeed
      obtain rfl := eq_feed_of_mem (List.mem_of_getElem? isFeed)
      obtain rfl : index = 0 := Nat.lt_one_iff.1 isOwn
      exact Or.inl ⟨⟨rfl, (hasInk_iff rest).2 inked⟩, rfl⟩
    · obtain ⟨index, rfl⟩ := Nat.exists_eq_add_of_le isLater
      rw [(later index).1] at isFeed
      rw [(later index).2] at inked
      exact Or.inr ⟨index, by omega, isFeed, inked⟩
  · rintro (⟨⟨rfl, inked⟩, rfl⟩ | ⟨index, rfl, isFeed, inked⟩)
    · exact ⟨0, rfl, rfl, (hasInk_iff rest).1 inked⟩
    · exact ⟨char.utf8Size + index, by omega, (later index).1 ▸ isFeed, (later index).2 ▸ inked⟩

/-- Lines with ink start behind the line feeds that have ink behind them. -/
theorem mem_inkedLines_iff : line ∈ inkedLines offset text ↔
    ∃ index, line = offset + index + 1 ∧ (bytes text)[index]? = some 10 ∧
      Inked ((bytes text).drop (index + 1)) := by
  induction text generalizing offset with
  | nil => simp [inkedLines, bytes]
  | cons char rest ih =>
    rw [exists_feed_cons_iff, ← ih, inkedLines]
    split
    · next starts =>
      simp only [Bool.and_eq_true, beq_iff_eq] at starts
      simp [starts]
    · next starts =>
      simp only [Bool.and_eq_true, beq_iff_eq] at starts
      simp [starts]

theorem pairwise_inkedLines (offset : Nat) (text : List Char) :
    (inkedLines offset text).Pairwise (· < ·) := by
  induction text generalizing offset with
  | nil => exact .nil
  | cons char rest ih =>
    rw [inkedLines]
    split
    · refine .cons (fun line isLine => ?_) (ih _)
      obtain ⟨index, rfl, _⟩ := mem_inkedLines_iff.1 isLine
      omega
    · exact ih _

theorem takeBytes_of_le (fits : byteLength text ≤ count) : takeBytes count text = text := by
  induction text generalizing count with
  | nil => rfl
  | cons char rest ih =>
    rw [byteLength_cons] at fits
    rw [takeBytes, if_pos (by omega), ih (by omega)]

/-- An offset cuts the bytes of a text as it cuts the text. -/
theorem bytes_takeBytes (isOffset : IsOffset text count) :
    bytes (takeBytes count text) = (bytes text).take count ∧
      bytes (dropBytes count text) = (bytes text).drop count := by
  have whole : bytes text = bytes (takeBytes count text) ++ bytes (dropBytes count text) := by
    rw [← bytes_append, takeBytes_append_dropBytes]
  rcases isOffset with isCut | isBeyond
  · obtain ⟨before, after, rfl, rfl⟩ := isBoundary_iff.1 isCut
    rw [takeBytes_append, dropBytes_append, bytes_append, ← length_bytes, List.take_left,
      List.drop_left]
    exact ⟨rfl, rfl⟩
  · rw [takeBytes_of_le isBeyond] at whole ⊢
    rw [← length_bytes] at isBeyond
    rw [List.take_of_length_le isBeyond, List.drop_of_length_le isBeyond]
    exact ⟨rfl, List.self_eq_append_right.1 whole⟩

theorem IsOffset.behind (isStart : IsOffset text start) (isStop : IsOffset text stop) :
    IsOffset (dropBytes start text) (stop - start) := by
  rcases Nat.lt_or_ge stop start with isBefore | notBefore
  · rw [Nat.sub_eq_zero_of_le (Nat.le_of_lt isBefore)]
    exact Or.inl (by rw [isBoundary, cut_zero]; rfl)
  · have length : byteLength (dropBytes start text) = byteLength text - start := by
      rw [← length_bytes, (bytes_takeBytes isStart).2, List.length_drop, length_bytes]
    rcases isStart with isCut | isBeyond
    · obtain ⟨front, rest, rfl, rfl⟩ := isBoundary_iff.1 isCut
      rcases isStop with isEnd | isBeyond
      · obtain ⟨inside, after, rfl, rfl⟩ := exists_split isEnd notBefore
        rw [dropBytes_append, Nat.add_sub_cancel_left]
        exact Or.inl (isBoundary_iff.2 ⟨inside, after, rfl, rfl⟩)
      · exact Or.inr (by omega)
    · exact Or.inr (by omega)

theorem bytes_slice (isStart : IsOffset text start) (isStop : IsOffset text stop) :
    bytes (slice text start stop) = ((bytes text).take stop).drop start := by
  rw [slice, (bytes_takeBytes (isStart.behind isStop)).1, (bytes_takeBytes isStart).2,
    List.drop_take]

/-- The starts of lines within a range are those with a line feed before and ink behind. -/
theorem mem_lineStartsWithin_iff (isStart : IsOffset text start) (isStop : IsOffset text stop) :
    line ∈ lineStartsWithin text start stop ↔ StartsInkedLine text start stop line := by
  rw [lineStartsWithin, mem_inkedLines_iff, bytes_slice isStart isStop]
  simp only [List.getElem?_drop, List.drop_drop, ← Nat.add_assoc]
  constructor
  · rintro ⟨index, rfl, isFeed, inked⟩
    obtain ⟨ink, _, isInk, _⟩ := id inked
    have inRange := (List.getElem?_eq_some_iff.1 isInk).1
    rw [List.length_drop, List.length_take] at inRange
    rw [List.getElem?_take_of_lt (by omega)] at isFeed
    exact ⟨by omega, by omega, isFeed, inked⟩
  · rintro ⟨behind, before, isFeed, inked⟩
    obtain ⟨index, rfl⟩ := Nat.exists_eq_add_of_lt behind
    exact ⟨index, rfl, by rw [List.getElem?_take_of_lt (by omega)]; exact isFeed, inked⟩

theorem byteLength_takeBytes (isOffset : IsOffset text count) :
    byteLength (takeBytes count text) = min count (byteLength text) := by
  rw [← length_bytes, (bytes_takeBytes isOffset).1, List.length_take, length_bytes]

/-- The line around an offset starts where its head starts. -/
theorem exists_front (text : List Char) (offset : Nat) :
    ∃ front, takeBytes offset text = front ++ lineHead text offset ∧
      lineStart text offset = byteLength front := by
  have isSplit : takeBytes offset text =
      ((takeBytes offset text).reverse.dropWhile (· != '\n')).reverse ++ lineHead text offset := by
    rw [lineHead, ← List.reverse_append, List.takeWhile_append_dropWhile, List.reverse_reverse]
  refine ⟨_, isSplit, ?_⟩
  have length := congrArg byteLength isSplit
  rw [byteLength_append] at length
  rw [lineStart]
  omega

/-- A line starts at its own start. -/
theorem StartsInkedLine.lineStart_eq (starts : StartsInkedLine text start stop line) :
    lineStart text line = line := by
  obtain ⟨left, right, rfl, isLine⟩ := exists_break_of_feed starts.feed
  obtain rfl : line = byteLength (left ++ ['\n']) := by
    rw [byteLength_append, ← isLine]
    exact (Nat.sub_add_cancel (Nat.zero_lt_of_lt starts.behind)).symm
  have taken := takeBytes_append (left ++ ['\n']) right
  rw [List.append_assoc, List.singleton_append] at taken
  rw [lineStart, lineHead, taken]
  simp

/-- No line starts in a range without a line feed, nor at its end. -/
theorem le_or_lt_of_not_isMultiline {inner : Span} (starts : StartsInkedLine text start stop line)
    (range : IsRange text inner) (oneLine : isMultiline text inner.start inner.stop = false) :
    line ≤ inner.start ∨ inner.stop < line := by
  rcases Nat.lt_or_ge inner.start line with isBehind | isBefore
  · refine Or.inr (Nat.lt_of_not_ge fun isInside => ?_)
    have isFeed :
        (bytes (slice text inner.start inner.stop))[line - 1 - inner.start]? = some 10 := by
      rw [bytes_slice (Or.inl range.startBoundary) (Or.inl range.stopBoundary),
        List.getElem?_drop, Nat.add_sub_cancel' (by omega), List.getElem?_take_of_lt (by omega)]
      exact starts.feed
    obtain ⟨left, right, isSlice, _⟩ := exists_break_of_feed isFeed
    rw [isMultiline, isSlice] at oneLine
    simp at oneLine
  · exact Or.inl isBefore

/-- What stands before an offset that starts its line belongs to the indentation. -/
theorem slice_isPrefix_lineIndent (isOffset : IsOffset text offset)
    (starts : startsLine text offset = true) :
    slice text (lineStart text offset) (min offset (byteLength text)) <+:
      lineIndent text offset := by
  obtain ⟨front, isHead, isStart⟩ := exists_front text offset
  have whole := takeBytes_append_dropBytes offset text
  have length := byteLength_takeBytes isOffset
  rw [isHead, byteLength_append] at length
  rw [isHead, List.append_assoc] at whole
  have behind : dropBytes (byteLength front) text =
      lineHead text offset ++ dropBytes offset text := by
    have dropped := dropBytes_append front (lineHead text offset ++ dropBytes offset text)
    rwa [whole] at dropped
  rw [lineIndent, slice, isStart, behind, ← length, Nat.add_sub_cancel_left, takeBytes_append,
    List.takeWhile_append_of_pos (List.all_eq_true.1 starts)]
  exact List.prefix_append _ _

/--
Within a range the starts of lines are listed in order: all offsets behind the start
and before the end of the range and of the text that follow a line feed and have ink
before the next one, the end of the range or the end of the text.  Each is the
start of its line, and what stands before an offset that starts its line is part of the
indentation.
-/
theorem line_starts_are_exact (text : List Char) {start stop : Nat} (isStart : IsOffset text start)
    (isStop : IsOffset text stop) :
    (lineStartsWithin text start stop).Pairwise (· < ·) ∧
    (∀ line, line ∈ lineStartsWithin text start stop ↔ StartsInkedLine text start stop line) ∧
    (∀ line ∈ lineStartsWithin text start stop, lineStart text line = line) ∧
    ∀ offset, IsOffset text offset → startsLine text offset = true →
      slice text (lineStart text offset) (min offset (byteLength text)) <+:
        lineIndent text offset :=
  ⟨pairwise_inkedLines _ _, fun _ => mem_lineStartsWithin_iff isStart isStop,
    fun _ isLine => ((mem_lineStartsWithin_iff isStart isStop).1 isLine).lineStart_eq,
    fun _ => slice_isPrefix_lineIndent⟩

/-- The lines of a text with a blank line and a long character, up to its last character. -/
theorem line_starts_are_exact_in_accented :
    let text := "é\n\n  a\n\tb".toList
    IsOffset text 2 ∧ IsOffset text 9 ∧ lineStartsWithin text 2 9 = [4] ∧
      StartsInkedLine text 2 9 4 := by
  refine ⟨Or.inl (by decide), Or.inl (by decide), by decide, ?_⟩
  exact ((line_starts_are_exact _ (Or.inl (by decide)) (Or.inl (by decide))).2.1 4).1 (by decide)

end Codemod.Text
