import Codemod.Files.Collect

/-!
# The order of paths

Paths are compared by their components, and components by their kind and their
text.  Both orders are total, and neither takes two different things for the
same.  So sorting a list of paths and leaving out repeats gives a list in which
every path comes strictly before the ones behind it.
-/

namespace Codemod

namespace PathComponent

variable {left middle right : PathComponent}

theorem eq_of_rank_of_text (sameRank : left.rank = right.rank)
    (sameText : left.text = right.text) : left = right := by
  cases left <;> cases right <;> first | rfl | cases sameRank
  exact congrArg name sameText

theorem precedes_iff :
    left.precedes right = true ↔
      left.rank < right.rank ∨ left.rank = right.rank ∧ left.text < right.text := by
  simp [precedes]

theorem precedes_irrefl : ¬ left.precedes left = true := by
  rw [precedes_iff]
  rintro (smaller | ⟨_, before⟩)
  · exact Nat.lt_irrefl _ smaller
  · exact String.lt_irrefl _ before

theorem precedes_trans (first : left.precedes middle = true)
    (second : middle.precedes right = true) : left.precedes right = true := by
  rw [precedes_iff] at first second ⊢
  rcases first with first | ⟨first, before⟩
  · rcases second with second | ⟨second, _⟩
    · exact Or.inl (Nat.lt_trans first second)
    · exact Or.inl (second ▸ first)
  · rcases second with second | ⟨second, behind⟩
    · exact Or.inl (first ▸ second)
    · exact Or.inr ⟨first.trans second, String.lt_trans before behind⟩

theorem precedes_or_eq_or_precedes (left right : PathComponent) :
    left.precedes right = true ∨ left = right ∨ right.precedes left = true := by
  simp only [precedes_iff]
  rcases Nat.lt_trichotomy left.rank right.rank with smaller | same | greater
  · exact Or.inl (Or.inl smaller)
  · by_cases before : left.text < right.text
    · exact Or.inl (Or.inr ⟨same, before⟩)
    · by_cases sameText : left.text = right.text
      · exact Or.inr (Or.inl (eq_of_rank_of_text same sameText))
      · have behind : right.text < left.text :=
          Std.lt_of_le_of_ne (String.not_lt.1 before) (Ne.symm sameText)
        exact Or.inr (Or.inr (Or.inr ⟨same.symm, behind⟩))
  · exact Or.inr (Or.inr (Or.inl greater))

end PathComponent

namespace Path

open PathComponent

theorem notAfter_cons {left right : PathComponent} {leftRest rightRest : List PathComponent} :
    notAfter (left :: leftRest) (right :: rightRest) = true ↔
      left.precedes right = true ∨ left = right ∧ notAfter leftRest rightRest = true := by
  simp [notAfter]

theorem notAfter_total {left right : List PathComponent}
    (after : notAfter left right = false) : notAfter right left = true := by
  induction left generalizing right with
  | nil => cases after
  | cons first rest ih =>
    cases right with
    | nil => rfl
    | cons other others =>
      rw [← Bool.not_eq_true, notAfter_cons, not_or, not_and] at after
      rw [notAfter_cons]
      rcases precedes_or_eq_or_precedes first other with before | same | behind
      · exact absurd before after.1
      · have restAfter := Bool.eq_false_iff.2 (after.2 same)
        exact Or.inr ⟨same.symm, ih restAfter⟩
      · exact Or.inl behind

theorem notAfter_trans {left middle right : List PathComponent}
    (first : notAfter left middle = true) (second : notAfter middle right = true) :
    notAfter left right = true := by
  induction left generalizing middle right with
  | nil => rfl
  | cons head rest ih =>
    cases middle with
    | nil => cases first
    | cons center between =>
      cases right with
      | nil => cases second
      | cons last others =>
        rw [notAfter_cons] at first second ⊢
        rcases first with first | ⟨rfl, first⟩
        · rcases second with second | ⟨rfl, _⟩
          · exact Or.inl (precedes_trans first second)
          · exact Or.inl first
        · rcases second with second | ⟨rfl, second⟩
          · exact Or.inl second
          · exact Or.inr ⟨rfl, ih first second⟩

theorem notAfter_antisymm {left right : List PathComponent}
    (first : notAfter left right = true) (second : notAfter right left = true) :
    left = right := by
  induction left generalizing right with
  | nil =>
    cases right with
    | nil => rfl
    | cons other others => cases second
  | cons head rest ih =>
    cases right with
    | nil => cases first
    | cons other others =>
      rw [notAfter_cons] at first second
      rcases first with first | ⟨rfl, first⟩
      · rcases second with second | ⟨rfl, _⟩
        · exact absurd (precedes_trans first second) precedes_irrefl
        · exact absurd first precedes_irrefl
      · rcases second with second | ⟨_, second⟩
        · exact absurd second precedes_irrefl
        · rw [ih first second]

/-- Whether a path comes strictly before another one. -/
def comesBefore (left right : String) : Bool :=
  notAfter (components left) (components right) && components left != components right

theorem comesBefore_iff {left right : String} : comesBefore left right = true ↔
      notAfter (components left) (components right) = true ∧
        components left ≠ components right := by
  simp [comesBefore]

theorem comesBefore_of_notAfter {left middle right : String}
    (before : comesBefore left middle = true)
    (notAfter : notAfter (components middle) (components right) = true) :
    comesBefore left right = true := by
  rw [comesBefore_iff] at before ⊢
  refine ⟨notAfter_trans before.1 notAfter, fun same => before.2 ?_⟩
  exact notAfter_antisymm before.1 (same ▸ notAfter)

/-- No two paths of an increasing list have the same components. -/
theorem eq_of_components_eq {paths : List String}
    (increasing : paths.Pairwise fun first second => comesBefore first second = true)
    {first second : String} (isFirst : first ∈ paths) (isSecond : second ∈ paths)
    (same : components first = components second) : first = second := by
  induction increasing with
  | nil => cases isFirst
  | @cons head rest before _ ih =>
    have apart : ∀ path ∈ rest, components head ≠ components path :=
      fun path member => (comesBefore_iff.1 (before path member)).2
    rcases List.mem_cons.1 isFirst with rfl | firstLater
    · rcases List.mem_cons.1 isSecond with rfl | secondLater
      · rfl
      · exact absurd same (apart second secondLater)
    · rcases List.mem_cons.1 isSecond with rfl | secondLater
      · exact absurd same.symm (apart first firstLater)
      · exact ih firstLater secondLater

end Path

namespace Files

open Codemod.Path

theorem mem_of_mem_dropRepeats {paths : List String} {path : String}
    (member : path ∈ dropRepeats paths) : path ∈ paths := by
  induction paths with
  | nil => exact member
  | cons first rest ih =>
    rw [dropRepeats] at member
    split at member
    · rw [List.mem_singleton] at member
      exact member ▸ List.mem_cons_self
    · rename_i next others isRest
      rw [isRest] at ih
      split at member
      · rcases List.mem_cons.1 member with rfl | isLater
        · exact List.mem_cons_self
        · exact List.mem_cons_of_mem _ (ih (List.mem_cons_of_mem _ isLater))
      · rcases List.mem_cons.1 member with rfl | isLater
        · exact List.mem_cons_self
        · exact List.mem_cons_of_mem _ (ih isLater)

/-- What remains of a sorted list without repeats increases strictly. -/
theorem increasing_dropRepeats {paths : List String}
    (sorted : paths.Pairwise fun first second => pathNotAfter first second = true) :
    (dropRepeats paths).Pairwise fun first second => comesBefore first second = true := by
  induction sorted with
  | nil => exact .nil
  | @cons first rest smaller _ ih =>
    have notAfterRest : ∀ path ∈ dropRepeats rest,
        notAfter (components first) (components path) = true :=
      fun path member => smaller path (mem_of_mem_dropRepeats member)
    rw [dropRepeats]
    split
    · exact List.pairwise_singleton _ first
    · rename_i next others isRest
      rw [isRest] at notAfterRest ih
      obtain ⟨beforeOthers, increasing⟩ := List.pairwise_cons.1 ih
      split
      · rename_i same
        rw [beq_iff_eq] at same
        refine List.pairwise_cons.2 ⟨fun path member => ?_, increasing⟩
        have behind := beforeOthers path member
        rwa [comesBefore, ← same] at behind
      · rename_i different
        rw [beq_iff_eq] at different
        refine List.pairwise_cons.2 ⟨fun path member => ?_, ih⟩
        have before : comesBefore first next = true :=
          comesBefore_iff.2 ⟨notAfterRest next List.mem_cons_self, different⟩
        rcases List.mem_cons.1 member with rfl | isLater
        · exact before
        · exact comesBefore_of_notAfter before (comesBefore_iff.1 (beforeOthers path isLater)).1

end Files

end Codemod
