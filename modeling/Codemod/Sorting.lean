/-!
# Sorting

A sort that keeps the order of items of the same rank.  Each item, from the
last one to the first, is put before the first item that it does not exceed, so
an earlier item stays before later ones of its rank.
-/

namespace Codemod

variable {α : Type}

/-- Put an item before the first one that it does not exceed. -/
def insertBy (notAfter : α → α → Bool) (item : α) : List α → List α
  | [] => [item]
  | first :: rest =>
    if notAfter item first then item :: first :: rest
    else first :: insertBy notAfter item rest

/-- The items of a list in order; items of the same rank keep theirs. -/
def sortBy (notAfter : α → α → Bool) (items : List α) : List α :=
  items.foldr (insertBy notAfter) []

theorem insertBy_perm (notAfter : α → α → Bool) (item : α) (items : List α) :
    (insertBy notAfter item items).Perm (item :: items) := by
  induction items with
  | nil => exact .refl _
  | cons first rest ih =>
    rw [insertBy]
    split
    · exact .refl _
    · exact (ih.cons first).trans (.swap item first rest)

theorem sortBy_perm (notAfter : α → α → Bool) (items : List α) :
    (sortBy notAfter items).Perm items := by
  induction items with
  | nil => exact .refl _
  | cons first rest ih =>
    exact (insertBy_perm notAfter first _).trans (ih.cons first)

theorem mem_insertBy {notAfter : α → α → Bool} {item other : α}
    {items : List α} :
    other ∈ insertBy notAfter item items ↔ other = item ∨ other ∈ items := by
  rw [(insertBy_perm notAfter item items).mem_iff, List.mem_cons]

theorem mem_sortBy {notAfter : α → α → Bool} {item : α} {items : List α} :
    item ∈ sortBy notAfter items ↔ item ∈ items :=
  (sortBy_perm notAfter items).mem_iff

theorem insertBy_pairwise {notAfter : α → α → Bool}
    (total : ∀ first second,
      notAfter first second = false → notAfter second first = true)
    (transitive : ∀ first second third, notAfter first second = true →
      notAfter second third = true → notAfter first third = true)
    (item : α) {items : List α}
    (sorted : items.Pairwise fun first second => notAfter first second = true) :
    (insertBy notAfter item items).Pairwise fun first second =>
      notAfter first second = true := by
  induction items with
  | nil => simp [insertBy]
  | cons first rest ih =>
    obtain ⟨head, tail⟩ := List.pairwise_cons.1 sorted
    rw [insertBy]
    split
    · rename_i before
      refine List.pairwise_cons.2 ⟨fun other member => ?_, sorted⟩
      rcases List.mem_cons.1 member with equal | member
      · exact equal ▸ before
      · exact transitive _ _ _ before (head other member)
    · rename_i after
      refine List.pairwise_cons.2 ⟨fun other member => ?_, ih tail⟩
      rcases mem_insertBy.1 member with equal | member
      · exact equal ▸ total _ _ (Bool.eq_false_iff.2 after)
      · exact head other member

theorem sortBy_pairwise {notAfter : α → α → Bool}
    (total : ∀ first second,
      notAfter first second = false → notAfter second first = true)
    (transitive : ∀ first second third, notAfter first second = true →
      notAfter second third = true → notAfter first third = true)
    (items : List α) :
    (sortBy notAfter items).Pairwise fun first second =>
      notAfter first second = true := by
  induction items with
  | nil => exact .nil
  | cons first rest ih => exact insertBy_pairwise total transitive first ih

end Codemod
