/-!
# Byte offsets of a character list

A source text is a list of characters, and an offset into it is the UTF-8
length of the characters before it.  `cut` splits a text at an offset and
fails exactly when the offset lies inside a character or past the end, so an
offset is a character boundary when `cut` succeeds.
-/

namespace Codemod.Text

/-- The number of bytes that the UTF-8 form of a text takes. -/
def byteLength : List Char → Nat
  | [] => 0
  | char :: rest => char.utf8Size + byteLength rest

/-- Split a text at a byte offset. -/
def cut (offset : Nat) : List Char → Option (List Char × List Char)
  | [] => if offset = 0 then some ([], []) else none
  | char :: rest =>
    if offset = 0 then some ([], char :: rest)
    else if char.utf8Size ≤ offset then
      (cut (offset - char.utf8Size) rest).map fun parts =>
        (char :: parts.1, parts.2)
    else none

/-- Whether an offset stands between two characters or at an end of the text. -/
def isBoundary (text : List Char) (offset : Nat) : Bool :=
  (cut offset text).isSome

/-- The longest beginning of a text that fits in a number of bytes. -/
def takeBytes (count : Nat) : List Char → List Char
  | [] => []
  | char :: rest =>
    if char.utf8Size ≤ count then
      char :: takeBytes (count - char.utf8Size) rest
    else []

/-- What `takeBytes` leaves. -/
def dropBytes (count : Nat) : List Char → List Char
  | [] => []
  | char :: rest =>
    if char.utf8Size ≤ count then dropBytes (count - char.utf8Size) rest
    else char :: rest

/-- The characters between two offsets, as far as the text reaches. -/
def slice (text : List Char) (start stop : Nat) : List Char :=
  takeBytes (stop - start) (dropBytes start text)

@[simp]
theorem byteLength_nil : byteLength [] = 0 := rfl

@[simp]
theorem byteLength_cons (char : Char) (rest : List Char) :
    byteLength (char :: rest) = char.utf8Size + byteLength rest := rfl

@[simp]
theorem byteLength_append (left right : List Char) :
    byteLength (left ++ right) = byteLength left + byteLength right := by
  induction left with
  | nil => simp
  | cons char rest ih => simp [ih, Nat.add_assoc]

@[simp]
theorem cut_zero (text : List Char) : cut 0 text = some ([], text) := by
  cases text <;> simp [cut]

/-- A successful cut loses nothing, and its first part is as long as asked. -/
theorem cut_eq_some {text before after : List Char} {offset : Nat}
    (parts : cut offset text = some (before, after)) :
    text = before ++ after ∧ byteLength before = offset := by
  induction text generalizing offset before with
  | nil =>
    simp only [cut] at parts
    split at parts <;> simp_all
  | cons char rest ih =>
    simp only [cut] at parts
    split at parts
    · simp_all
    · split at parts
      · obtain ⟨⟨inner, tail⟩, found, same⟩ := Option.map_eq_some_iff.1 parts
        simp only [Prod.mk.injEq] at same
        obtain ⟨rfl, rfl⟩ := same
        obtain ⟨joined, length⟩ := ih found
        refine ⟨by simp [joined], ?_⟩
        simp only [byteLength_cons, length]
        omega
      · simp at parts

/-- Every way of writing a text as two parts is a cut. -/
@[simp]
theorem cut_append (before after : List Char) :
    cut (byteLength before) (before ++ after) = some (before, after) := by
  induction before with
  | nil => simp
  | cons char rest ih =>
    have positive : 0 < char.utf8Size := Char.utf8Size_pos char
    simp only [byteLength_cons, List.cons_append, cut]
    rw [if_neg (by omega), if_pos (by omega)]
    have shorter :
        char.utf8Size + byteLength rest - char.utf8Size = byteLength rest := by
      omega
    rw [shorter, ih]
    rfl

theorem takeBytes_append_dropBytes (count : Nat) (text : List Char) :
    takeBytes count text ++ dropBytes count text = text := by
  induction text generalizing count with
  | nil => simp [takeBytes, dropBytes]
  | cons char rest ih =>
    simp only [takeBytes, dropBytes]
    split <;> simp [ih]

end Codemod.Text
