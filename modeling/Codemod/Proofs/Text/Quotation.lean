import Codemod.Options.Style
import Codemod.Token.Lexer

/-!
# Strings in quotes

A text in quotes is read back as the text, unless it holds a line break: that
is neither escaped nor allowed in a string.  A reader that only knows backslashes
reads back every text (`quoted_texts_are_unquoted`).
-/

namespace Codemod

namespace Lexer

/-- Whether a character cannot stand in a string as it is. -/
def breaksString (char : Char) : Bool :=
  char == '\n' || char == '\r'

/-- A quote or a backslash is read back behind a backslash. -/
theorem readEscape_quoted {quote : Quote} {char : Char}
    (isEscaped : (char == quote.char || char == '\\') = true) (rest : List Char) :
    readEscape (char :: rest) = some ([char], rest) := by
  simp only [Bool.or_eq_true, beq_iff_eq] at isEscaped
  rcases isEscaped with rfl | rfl
  · cases quote <;> rfl
  · rfl

theorem readStringRest_cons {quote : Quote} {char : Char} (fuel : Nat) (rest : List Char)
    (isPlain : (char == quote.char || char == '\\') = false) :
    readStringRest quote.char (fuel + 1) (char :: rest) =
      if breaksString char then none
      else (readStringRest quote.char fuel rest).map fun read =>
        (char :: read.1, read.2) := by
  rw [Bool.or_eq_false_iff] at isPlain
  rw [readStringRest]
  · rw [isPlain.1, if_neg Bool.false_ne_true]
    rw [breaksString]
    split
    · rfl
    · cases readStringRest quote.char fuel rest <;> rfl
  · rintro rfl
    exact absurd isPlain.2 (by decide)

/-- The characters of a text as they stand between quotes. -/
def escapedIn (quote : Quote) (value : List Char) : List Char :=
  value.flatMap fun char =>
    if char == quote.char || char == '\\' then ['\\', char] else [char]

theorem quoted_eq (style : Style) (value : List Char) : style.quoted value =
      style.quote.char :: (escapedIn style.quote value ++ [style.quote.char]) := rfl

theorem length_le_escapedIn (quote : Quote) (value : List Char) :
    value.length ≤ (escapedIn quote value).length := by
  induction value with
  | nil => exact Nat.le_refl 0
  | cons char value ih =>
    simp only [escapedIn, List.flatMap_cons, List.length_cons, List.length_append]
      at ih ⊢
    split <;> simp only [List.length_cons, List.length_nil] <;> omega

theorem readStringRest_escapedIn (quote : Quote) (value rest : List Char) {fuel : Nat}
    (enough : value.length < fuel) :
    readStringRest quote.char fuel (escapedIn quote value ++ (quote.char :: rest)) =
      if value.any breaksString then none else some (value, rest) := by
  induction value generalizing fuel with
  | nil =>
    match fuel, enough with
    | fuel + 1, _ => cases quote <;> rfl
  | cons char value ih =>
    match fuel, enough with
    | fuel + 1, enough =>
      have others := ih (Nat.lt_of_succ_lt_succ enough)
      cases isEscaped : (char == quote.char || char == '\\') with
      | true =>
        have harmless : breaksString char = false := by
          simp only [Bool.or_eq_true, beq_iff_eq] at isEscaped
          rcases isEscaped with rfl | rfl
          · cases quote <;> rfl
          · rfl
        have text : escapedIn quote (char :: value) ++ (quote.char :: rest) =
            '\\' :: char :: (escapedIn quote value ++ (quote.char :: rest)) := by
          simp only [escapedIn, List.flatMap_cons, isEscaped, if_true]
          rfl
        rw [text, readStringRest, readEscape_quoted isEscaped, List.any_cons, harmless,
          Bool.false_or]
        simp only [Option.bind_eq_bind, Option.bind_some, others]
        split <;> rfl
      | false =>
        have text : escapedIn quote (char :: value) ++ (quote.char :: rest) =
            char :: (escapedIn quote value ++ (quote.char :: rest)) := by
          simp only [escapedIn, List.flatMap_cons, isEscaped, Bool.false_eq_true, if_false]
          rfl
        rw [text, readStringRest_cons _ _ isEscaped, others, List.any_cons]
        cases breaksString char <;> cases value.any breaksString <;> rfl

/-- A text in quotes is one string, unless it holds a line break. -/
theorem readKind_quoted (style : Style) (value rest : List Char) :
    readKind (style.quoted value ++ rest) =
      if value.any breaksString then none
      else some (.string (String.ofList value), rest) := by
  have enough : value.length <
      (escapedIn style.quote value ++ (style.quote.char :: rest)).length + 1 := by
    have shorter := length_le_escapedIn style.quote value
    simp only [List.length_append]
    omega
  have reads := readStringRest_escapedIn style.quote value rest enough
  have text : style.quoted value ++ rest = style.quote.char ::
      (escapedIn style.quote value ++ (style.quote.char :: rest)) := by
    simp [quoted_eq]
  rw [text]
  cases isQuote : style.quote <;> rw [isQuote] at reads <;>
    simp only [Quote.char] at reads ⊢ <;>
    rw [readKind, reads] <;> split <;> rfl

/--
What stands before the first quote that no backslash makes literal, each backslash
taken away, and what follows that quote.
-/
def unquote (mark : Char) : List Char → Option (List Char × List Char)
  | [] => none
  | '\\' :: char :: rest => (unquote mark rest).map fun read => (char :: read.1, read.2)
  | char :: rest =>
    if char == mark then some ([], rest)
    else (unquote mark rest).map fun read => (char :: read.1, read.2)

theorem unquote_escapedIn (quote : Quote) (value rest : List Char) :
    unquote quote.char (escapedIn quote value ++ quote.char :: rest) = some (value, rest) := by
  induction value with
  | nil => cases quote <;> rfl
  | cons char value ih =>
    have read : (unquote quote.char (escapedIn quote value ++ quote.char :: rest)).map
        (fun read => (char :: read.1, read.2)) = some (char :: value, rest) := by
      rw [ih]
      rfl
    rw [escapedIn, List.flatMap_cons, List.append_assoc, ← escapedIn]
    split
    · exact read
    · next isPlain =>
      simp only [Bool.or_eq_true, beq_iff_eq, not_or] at isPlain
      rw [List.singleton_append, unquote, if_neg (by simpa using isPlain.1), read]
      rintro _ _ rfl
      exact absurd rfl isPlain.2

/--
A text in quotes starts with a quote; behind that the next quote without a
backslash is its last character, whatever follows, and the text stands between them.
So different texts stay different in quotes.
-/
theorem quoted_texts_are_unquoted (style : Style) :
    (∀ value rest, ∃ body, style.quoted value = style.quote.char :: body ∧
      unquote style.quote.char (body ++ rest) = some (value, rest)) ∧
    Function.Injective style.quoted := by
  have reads (value rest : List Char) : ∃ body, style.quoted value = style.quote.char :: body ∧
      unquote style.quote.char (body ++ rest) = some (value, rest) := by
    refine ⟨_, quoted_eq style value, ?_⟩
    rw [List.append_assoc]
    exact unquote_escapedIn style.quote value rest
  refine ⟨reads, fun first second same => ?_⟩
  obtain ⟨body, isFirst, readsFirst⟩ := reads first []
  obtain ⟨other, isSecond, readsSecond⟩ := reads second []
  rw [isFirst, isSecond, List.cons.injEq] at same
  rw [same.2, readsSecond] at readsFirst
  exact (congrArg Prod.fst (Option.some.inj readsFirst)).symm

end Lexer

end Codemod
