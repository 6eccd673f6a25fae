/-!
# Spans

Every token, tree node, declaration and edit of this library is located by the
half-open range of UTF-8 byte offsets that it covers.
-/

namespace Codemod

/-- A half-open range of byte offsets into a source text. -/
structure Span where
  start : Nat
  stop : Nat
  deriving DecidableEq, Repr, Inhabited

namespace Span

/-- Whether `inner` lies within `outer`, ends included. -/
def contains (outer inner : Span) : Bool :=
  outer.start ≤ inner.start && inner.stop ≤ outer.stop

/-- Whether an offset lies in the half-open range. -/
def holds (span : Span) (offset : Nat) : Bool :=
  span.start ≤ offset && offset < span.stop

/-- The least span that starts with `first` and ends with `last`. -/
def cover (first last : Span) : Span :=
  ⟨first.start, last.stop⟩

@[simp]
theorem contains_iff {outer inner : Span} :
    outer.contains inner = true ↔
      outer.start ≤ inner.start ∧ inner.stop ≤ outer.stop := by
  simp [contains]

theorem contains_refl (span : Span) : span.contains span = true := by
  simp

theorem contains_trans {outer middle inner : Span}
    (first : outer.contains middle = true)
    (second : middle.contains inner = true) :
    outer.contains inner = true := by
  simp only [contains_iff] at first second ⊢
  omega

end Span

end Codemod
