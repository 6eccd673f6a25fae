import Codemod.Proofs.Scope.Landing

/-!
# The scopes around a scope

A table says which scope lies in which by its parents, a tree by its places.  The
way outwards from a scope leads through the scopes that are open at its node
(`ancestors_places`), so a scope lies in another one exactly if the other one is
open at its node or is the scope itself (`isWithin_iff_place`).
-/

namespace Codemod

open ScopeTable

namespace Node

variable {root : Node} {place outer : Place}

/-- What is open at a place is the innermost scope there and what is open at its node. -/
theorem scopesAt_of_innermost? (isInnermost : root.innermost? place = some outer) :
    root.scopesAt place = outer :: root.scopesAt outer := by
  induction place generalizing root outer with
  | nil =>
    cases root
    cases isInnermost
  | cons index rest ih =>
    obtain ⟨kind, span, children⟩ := root
    rw [innermost?, scopesAt] at isInnermost
    rw [scopesAt]
    cases isChild : children[index]? with
    | none =>
      rw [isChild] at isInnermost
      cases isInnermost
    | some child =>
      rw [isChild] at isInnermost
      dsimp only at isInnermost ⊢
      cases deeper : child.scopesAt rest with
      | nil =>
        rw [deeper, List.map_nil, List.nil_append] at isInnermost
        split at isInnermost
        · next holds =>
          cases isInnermost
          rw [if_pos holds]
          rfl
        · cases isInnermost
      | cons first others =>
        rw [deeper] at isInnermost
        cases isInnermost
        have isFirst : child.innermost? rest = some first := by
          rw [innermost?, deeper]
          rfl
        rw [← deeper, ih isFirst, scopesAt, isChild]
        rfl

end Node

namespace ScopeTable

variable {root : Node} {place outer : Place} {id other : ScopeId}

/-- The way outwards from a scope leads through the scopes that are open at its node. -/
theorem ancestors_places (shaped : root.isWellShaped = true)
    (isPlace : root.openings[id]? = some place) :
    ((ofProgram root).ancestors id).map (fun id => root.openings[id]?) =
      (place :: root.scopesAt place).map some := by
  have formed := wellFormed_ofProgram root
  induction id using formed.induction generalizing place with
  | absent id absent =>
    obtain ⟨scope, found, _⟩ := exists_isAt shaped isPlace
    rw [absent] at found
    cases found
  | outermost id scope found around =>
    obtain ⟨same, isSame, isAt⟩ := exists_isAt shaped isPlace
    obtain rfl : scope = same := Option.some.inj (found.symm.trans isSame)
    have isInnermost := isAt.parent
    rw [around] at isInnermost
    rw [ancestors_of_root found around, List.head?_eq_none_iff.1 isInnermost.symm]
    simp [isPlace]
  | inner id scope parent found around ih =>
    obtain ⟨same, isSame, isAt⟩ := exists_isAt shaped isPlace
    obtain rfl : scope = same := Option.some.inj (found.symm.trans isSame)
    have isInnermost := isAt.parent
    rw [around, Option.bind_some] at isInnermost
    have smaller := Nat.lt_trans (formed.parent_lt found around) (lt_length_of_get? found)
    rw [length_scopes_ofProgram shaped] at smaller
    have isOuter := List.getElem?_eq_getElem smaller
    rw [isOuter] at isInnermost
    rw [formed.ancestors_cons found around, Node.scopesAt_of_innermost? isInnermost.symm,
      List.map_cons, ih isOuter, isPlace]
    rfl

/-- A scope lies in another one exactly if that is open at its node, or is the scope itself. -/
theorem isWithin_iff_place (shaped : root.isWellShaped = true)
    (isPlace : root.openings[id]? = some place) (isOuter : root.openings[other]? = some outer) :
    (ofProgram root).isWithin id other = true ↔ outer ∈ place :: root.scopesAt place := by
  have places := ancestors_places shaped isPlace
  rw [isWithin_iff]
  constructor
  · intro isAround
    have isListed := List.mem_map_of_mem (f := fun id => root.openings[id]?) isAround
    rw [places, isOuter] at isListed
    simpa using isListed
  · intro isOpen
    have isListed := List.mem_map_of_mem (f := some) isOpen
    rw [← places] at isListed
    obtain ⟨same, isAround, isSame⟩ := List.mem_map.1 isListed
    rwa [Survey.eq_of_getElem?_openings isSame isOuter] at isAround

end ScopeTable

end Codemod
