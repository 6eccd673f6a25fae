import Codemod.Text.Order
import Mathlib.Tactic.SplitIfs

/-!
# The order of names

A set of names is kept in strictly increasing order, each name once.  Names are
compared by their characters; `toUTF8_lt_of_lt` says that this is the order of
their UTF-8 bytes.  What makes it so is that the bytes of a smaller character
are smaller at the first byte in which they differ, and that there always is
such a byte: no character's bytes start those of another.
-/

namespace Codemod.Text

variable {names : List String}

theorem mem_insertName {name other : String} :
    name ∈ insertName other names ↔ name = other ∨ name ∈ names := by
  induction names with
  | nil => simp [insertName]
  | cons first rest ih =>
    rw [insertName]
    split
    · rename_i same
      simp [same]
    · split
      · simp
      · simp [ih, or_left_comm]

@[simp]
theorem mem_nameSet {name : String} : name ∈ nameSet names ↔ name ∈ names := by
  rw [nameSet]
  induction names with
  | nil => simp
  | cons first rest ih =>
    simp [mem_insertName, ih]

/-! ## Increasing names -/

theorem increasing_insertName {name : String} (increasing : names.Pairwise (· < ·)) :
    (insertName name names).Pairwise (· < ·) := by
  induction increasing with
  | nil => exact List.pairwise_singleton _ name
  | @cons first rest smaller increasing ih =>
    rw [insertName]
    split
    · exact List.pairwise_cons.2 ⟨smaller, increasing⟩
    · next different =>
      split
      · next before =>
        refine List.pairwise_cons.2 ⟨?_, List.pairwise_cons.2 ⟨smaller, increasing⟩⟩
        intro other member
        rcases List.mem_cons.1 member with rfl | isLater
        · exact before
        · exact String.lt_trans before (smaller other isLater)
      · next notBefore =>
        have after : first < name :=
          Std.lt_of_le_of_ne (String.not_lt.1 notBefore) (Ne.symm different)
        refine List.pairwise_cons.2 ⟨?_, ih⟩
        intro other member
        rcases mem_insertName.1 member with rfl | isLater
        · exact after
        · exact smaller other isLater

/-- The names of a set stand in strictly increasing order. -/
theorem increasing_nameSet (names : List String) : (nameSet names).Pairwise (· < ·) := by
  rw [nameSet]
  induction names with
  | nil => exact List.Pairwise.nil
  | cons first rest ih =>
    exact increasing_insertName ih

theorem nodup_nameSet (names : List String) : (nameSet names).Nodup :=
  (increasing_nameSet names).imp fun smaller => Std.ne_of_lt smaller

/-! ## Bytes -/

/-- Whatever follows them, the bytes of a smaller character come first. -/
theorem utf8EncodeChar_append_lt {first second : Char} (smaller : first < second)
    (left right : List UInt8) :
    String.utf8EncodeChar first ++ left < String.utf8EncodeChar second ++ right := by
  have codes : first.val.toNat < second.val.toNat := smaller
  have bound : second.val.toNat < 0x110000 := by
    have valid := second.valid
    simp only [UInt32.isValidChar, Nat.isValidChar] at valid
    omega
  have digits (code : Nat) : code / 4096 = code / 64 / 64 := by omega
  have highDigits (code : Nat) : code / 262144 = code / 64 / 64 / 64 := by omega
  rw [String.utf8EncodeChar, String.utf8EncodeChar]
  -- One case for each pair of lengths; most of them contradict the order.
  split_ifs
  all_goals
    simp only [List.cons_append, List.nil_append, List.cons_lt_cons_iff,
      UInt8.lt_iff_toNat_lt, ← UInt8.toNat_inj, UInt8.toNat_ofNat', digits, highDigits]
    omega

theorem utf8EncodeChars_lt {first second : List Char} (smaller : first < second) :
    first.flatMap String.utf8EncodeChar < second.flatMap String.utf8EncodeChar := by
  induction smaller with
  | @nil char rest =>
    rw [List.flatMap_nil, List.flatMap_cons]
    cases bytes : String.utf8EncodeChar char with
    | nil => exact absurd bytes String.utf8EncodeChar_ne_nil
    | cons byte others => exact List.nil_lt_cons byte _
  | rel less => exact utf8EncodeChar_append_lt less _ _
  | cons _ ih =>
    rw [List.flatMap_cons, List.flatMap_cons]
    exact List.append_left_lt ih

/-- The order of names is the order of their bytes. -/
theorem toUTF8_lt_of_lt {first second : String} (smaller : first < second) :
    first.toUTF8.data.toList < second.toUTF8.data.toList := by
  have bytes (text : String) :
      text.toUTF8.data.toList = text.toList.flatMap String.utf8EncodeChar := by
    rw [String.toUTF8_eq_toByteArray, ← String.utf8Encode_toList, List.utf8Encode]
    exact List.toList_data_toByteArray
  rw [bytes, bytes]
  exact utf8EncodeChars_lt (String.lt_iff.1 smaller)

end Codemod.Text
