import Mathlib.Data.List.Induction
import Mathlib.Data.List.Nodup
import Mathlib.Data.List.Perm.Basic

/-!
# Lists that enumerate a relation

A list enumerates a relation between indices and values if it has the values of
the relation, one for each index that has one, in any order.  This is how it is
said here that each of many things is written down exactly once.  Where the
indices are ways through a tree, a list may have the values in their order, from
left to right (`ListsByPath`).
-/

namespace Codemod

/-- The values are those of the relation, in some order and one for each index. -/
def Enumerates {ι α : Type} (relation : ι → α → Prop) (values : List α) : Prop :=
  ∃ pairs : List (ι × α), (pairs.map (·.1)).Nodup ∧
    (∀ index value, (index, value) ∈ pairs ↔ relation index value) ∧
    (pairs.map (·.2)).Perm values

namespace Enumerates

variable {ι κ α β : Type} {relation other : ι → α → Prop} {values more : List α}

section

variable (enumerates : Enumerates relation values)
include enumerates

theorem mem_iff {value : α} : value ∈ values ↔ ∃ index, relation index value := by
  obtain ⟨pairs, _, isPair, perm⟩ := enumerates
  rw [← perm.mem_iff, List.mem_map]
  constructor
  · rintro ⟨⟨index, value⟩, member, rfl⟩
    exact ⟨index, (isPair index value).1 member⟩
  · rintro ⟨index, holds⟩
    exact ⟨(index, value), (isPair index value).2 holds, rfl⟩

/-- No index has two values. -/
theorem unique {index : ι} {first second : α} (isFirst : relation index first)
    (isSecond : relation index second) : first = second := by
  obtain ⟨pairs, nodup, isPair, _⟩ := enumerates
  have same := List.inj_on_of_nodup_map nodup ((isPair _ _).2 isFirst) ((isPair _ _).2 isSecond) rfl
  exact congrArg Prod.snd same

/-- Where no value has two indices, none is listed twice. -/
theorem nodup (injective : ∀ first second value, relation first value → relation second value →
      first = second) : values.Nodup := by
  obtain ⟨pairs, nodup, isPair, perm⟩ := enumerates
  rw [← perm.nodup_iff]
  refine List.Nodup.map_on ?_ (List.Nodup.of_map _ nodup)
  rintro ⟨first, value⟩ isFirst ⟨second, _⟩ isSecond rfl
  rw [injective first second value ((isPair _ _).1 isFirst) ((isPair _ _).1 isSecond)]

theorem congr (same : ∀ index value, relation index value ↔ other index value) :
    Enumerates other values := by
  obtain ⟨pairs, nodup, isPair, perm⟩ := enumerates
  exact ⟨pairs, nodup, fun index value => (isPair index value).trans (same index value), perm⟩

theorem perm (same : values.Perm more) : Enumerates relation more := by
  obtain ⟨pairs, nodup, isPair, perm⟩ := enumerates
  exact ⟨pairs, nodup, isPair, perm.trans same⟩

end

theorem nil (empty : ∀ index value, ¬ relation index value) : Enumerates relation [] :=
  ⟨[], List.nodup_nil, fun index value => by simp [empty index value], List.Perm.nil⟩

theorem singleton (index : ι) {value : α}
    (only : ∀ index' value', relation index' value' ↔ index' = index ∧ value' = value) :
    Enumerates relation [value] :=
  ⟨[(index, value)], List.nodup_singleton _,
    fun index' value' => by simp [only index' value'], List.Perm.refl _⟩

/-- A list has a value at each of its positions. -/
theorem positions (values : List α) :
    Enumerates (fun (index : Nat) value => values[index]? = some value) values := by
  refine ⟨values.zipIdx.map fun pair => (pair.2, pair.1), ?_, ?_, ?_⟩
  · have numbers : (values.zipIdx.map fun pair => (pair.2, pair.1)).map (·.1) =
        List.range' 0 values.length := by
      rw [List.map_map]
      exact List.zipIdx_map_snd 0 values
    rw [numbers]
    exact List.nodup_range'
  · intro index value
    rw [List.mem_map]
    constructor
    · rintro ⟨⟨_, _⟩, member, same⟩
      cases same
      exact List.mem_zipIdx_iff_getElem?.1 member
    · intro isValue
      exact ⟨(value, index), List.mem_zipIdx_iff_getElem?.2 isValue, rfl⟩
  · have same : (values.zipIdx.map fun pair => (pair.2, pair.1)).map (·.2) = values := by
      rw [List.map_map]
      exact List.zipIdx_map_fst 0 values
    rw [same]

theorem append (first : Enumerates relation values) (second : Enumerates other more)
    (apart : ∀ index value value', relation index value → ¬ other index value') :
    Enumerates (fun index value => relation index value ∨ other index value) (values ++ more) := by
  obtain ⟨pairs, nodup, isPair, perm⟩ := first
  obtain ⟨pairs', nodup', isPair', perm'⟩ := second
  refine ⟨pairs ++ pairs', ?_, ?_, ?_⟩
  · rw [List.map_append, List.nodup_append]
    refine ⟨nodup, nodup', ?_⟩
    rintro _ isFirst _ isSecond rfl
    obtain ⟨⟨index, value⟩, member, rfl⟩ := List.mem_map.1 isFirst
    obtain ⟨⟨_, value'⟩, member', rfl⟩ := List.mem_map.1 isSecond
    exact apart _ value value' ((isPair _ _).1 member) ((isPair' _ _).1 member')
  · intro index value
    rw [List.mem_append, isPair, isPair']
  · rw [List.map_append]
    exact perm.append perm'

section

variable (enumerates : Enumerates relation values)
include enumerates

/-- Give the indices other names. -/
theorem embed (name : ι → κ)
    (injective : ∀ first second value value', relation first value → relation second value' →
      name first = name second → first = second) :
    Enumerates (fun index value => ∃ own, name own = index ∧ relation own value) values := by
  obtain ⟨pairs, nodup, isPair, perm⟩ := enumerates
  refine ⟨pairs.map fun pair => (name pair.1, pair.2), ?_, ?_, ?_⟩
  · have same : (pairs.map fun pair => (name pair.1, pair.2)).map (·.1) =
        (pairs.map (·.1)).map name := by simp
    rw [same]
    refine List.Nodup.map_on ?_ nodup
    intro first isFirst second isSecond equal
    obtain ⟨⟨_, value⟩, member, rfl⟩ := List.mem_map.1 isFirst
    obtain ⟨⟨_, value'⟩, member', rfl⟩ := List.mem_map.1 isSecond
    exact injective _ _ value value' ((isPair _ _).1 member) ((isPair _ _).1 member') equal
  · intro index value
    rw [List.mem_map]
    constructor
    · rintro ⟨⟨own, _⟩, member, same⟩
      cases same
      exact ⟨own, rfl, (isPair _ _).1 member⟩
    · rintro ⟨own, rfl, holds⟩
      exact ⟨(own, value), (isPair _ _).2 holds, rfl⟩
  · have same : (pairs.map fun pair => (name pair.1, pair.2)).map (·.2) = pairs.map (·.2) := by
      simp
    rwa [same]

/-- Keep some of the values and change them. -/
theorem filterMap (select : α → Option β) :
    Enumerates (fun index value => ∃ old, relation index old ∧ select old = some value)
      (values.filterMap select) := by
  obtain ⟨pairs, nodup, isPair, perm⟩ := enumerates
  refine ⟨pairs.filterMap fun pair => (select pair.2).map fun value => (pair.1, value), ?_, ?_, ?_⟩
  · have sublist : ((pairs.filterMap fun pair =>
        (select pair.2).map fun value => (pair.1, value)).map (·.1)).Sublist (pairs.map (·.1)) := by
      clear nodup isPair perm
      induction pairs with
      | nil => exact List.Sublist.refl _
      | cons pair rest ih =>
        rw [List.filterMap_cons]
        cases select pair.2 with
        | none => exact ih.cons _
        | some value => exact ih.cons_cons _
    exact sublist.nodup nodup
  · intro index value
    rw [List.mem_filterMap]
    constructor
    · rintro ⟨⟨own, old⟩, member, isValue⟩
      obtain ⟨new, isNew, same⟩ := Option.map_eq_some_iff.1 isValue
      cases same
      exact ⟨old, (isPair _ _).1 member, isNew⟩
    · rintro ⟨old, holds, isValue⟩
      exact ⟨(index, old), (isPair _ _).2 holds, by simp [isValue]⟩
  · have same : (pairs.filterMap fun pair =>
        (select pair.2).map fun value => (pair.1, value)).map (·.2) =
          (pairs.map (·.2)).filterMap select := by
      rw [List.map_filterMap, List.filterMap_map]
      congr 1
      funext pair
      simp [Function.comp_def]
    rw [same]
    exact perm.filterMap select

theorem map (change : α → β) :
    Enumerates (fun index value => ∃ old, relation index old ∧ change old = value)
      (values.map change) := by
  have changed := enumerates.filterMap (some ∘ change)
  rw [List.filterMap_eq_map] at changed
  exact changed.congr fun index value => by simp

/-- Put a list in the place of each value. -/
theorem flatMap {within : α → κ → β → Prop} {expand : α → List β}
    (each : ∀ value ∈ values, Enumerates (within value) (expand value)) :
    Enumerates (fun (index : ι × κ) value => ∃ old, relation index.1 old ∧
      within old index.2 value) (values.flatMap expand) := by
  obtain ⟨pairs, nodup, isPair, perm⟩ := enumerates
  have eachPair : ∀ pair ∈ pairs, Enumerates (within pair.2) (expand pair.2) :=
    fun pair member => each _ (perm.mem_iff.1 (List.mem_map_of_mem member))
  suffices all : Enumerates (fun (index : ι × κ) value => ∃ old, (index.1, old) ∈ pairs ∧
      within old index.2 value) ((pairs.map (·.2)).flatMap expand) by
    refine (all.perm (perm.flatMap_right expand)).congr fun index value => ?_
    simp only [isPair]
  clear perm isPair each
  induction pairs with
  | nil => exact nil (by simp)
  | cons pair rest ih =>
    obtain ⟨isNew, restNodup⟩ := List.nodup_cons.1 nodup
    have first := (eachPair pair List.mem_cons_self).embed (fun index => (pair.1, index))
      fun _ _ _ _ _ _ same => congrArg Prod.snd same
    have others := ih restNodup fun other member =>
      eachPair other (List.mem_cons_of_mem _ member)
    rw [List.map_cons, List.flatMap_cons]
    refine (first.append others ?_).congr fun index value => ?_
    · rintro index value value' ⟨_, rfl, _⟩ ⟨old, member, _⟩
      exact isNew (List.mem_map.2 ⟨_, member, rfl⟩)
    · constructor
      · rintro (⟨_, rfl, holds⟩ | ⟨old, member, holds⟩)
        · exact ⟨pair.2, List.mem_cons_self, holds⟩
        · exact ⟨old, List.mem_cons_of_mem _ member, holds⟩
      · rintro ⟨old, member, holds⟩
        rcases List.mem_cons.1 member with rfl | isLater
        · exact Or.inl ⟨index.2, rfl, holds⟩
        · exact Or.inr ⟨old, isLater, holds⟩

end

/-- Values with numbers are enumerated if those of each number are. -/
theorem of_numbers (number : α → Nat) {count : Nat}
    (bounded : ∀ value ∈ values, number value < count)
    (within : ∀ index value, relation index value → number value < count)
    (unique : ∀ index value value', relation index value → relation index value' →
      number value = number value')
    (each : ∀ id < count, Enumerates (fun index value => relation index value ∧ number value = id)
      (values.filter fun value => number value == id)) :
    Enumerates relation values := by
  suffices below : ∀ limit ≤ count,
      Enumerates (fun index value => relation index value ∧ number value < limit)
        (values.filter fun value => decide (number value < limit)) by
    have all := below count (Nat.le_refl _)
    rw [List.filter_eq_self.2 fun value member => decide_eq_true (bounded value member)] at all
    exact all.congr fun index value => and_iff_left_of_imp (within index value)
  intro limit
  induction limit with
  | zero => exact fun _ => by simpa using nil (by simp)
  | succ limit ih =>
    intro isLimit
    have lower := ih (Nat.le_of_succ_le isLimit)
    refine ((lower.append (each limit isLimit) ?_).congr fun index value => ?_).perm ?_
    · rintro index value value' ⟨isValue, isBelow⟩ ⟨isValue', rfl⟩
      rw [unique index value value' isValue isValue'] at isBelow
      exact Nat.lt_irrefl _ isBelow
    · rw [← and_or_left, Nat.lt_succ_iff_lt_or_eq]
    · have split := List.filter_append_perm (fun value => decide (number value < limit))
        (values.filter fun value => decide (number value < limit + 1))
      rw [List.filter_filter, List.filter_filter] at split
      refine List.Perm.trans (List.Perm.of_eq ?_) split
      congr 2
      all_goals
        funext value
        rw [Bool.eq_iff_iff]
        simp
        omega

end Enumerates

/-- The values are those of the relation, one for each way, in the order of the ways. -/
def ListsByPath {α : Type} (relation : List Nat → α → Prop) (values : List α) : Prop :=
  ∃ pairs : List (List Nat × α), pairs.Pairwise (fun first second => first.1 < second.1) ∧
    (∀ path value, (path, value) ∈ pairs ↔ relation path value) ∧ pairs.map (·.2) = values

namespace ListsByPath

variable {α β : Type} {relation other : List Nat → α → Prop} {values more : List α}

theorem enumerates (lists : ListsByPath relation values) : Enumerates relation values := by
  obtain ⟨pairs, ordered, isPair, rfl⟩ := lists
  refine ⟨pairs, ?_, isPair, List.Perm.refl _⟩
  rw [List.Nodup, List.pairwise_map]
  refine ordered.imp fun {first second} before same => ?_
  rw [same] at before
  exact List.lt_irrefl _ before

theorem congr (lists : ListsByPath relation values)
    (same : ∀ path value, relation path value ↔ other path value) : ListsByPath other values := by
  obtain ⟨pairs, ordered, isPair, isValues⟩ := lists
  exact ⟨pairs, ordered, fun path value => (isPair path value).trans (same path value), isValues⟩

theorem nil (empty : ∀ path value, ¬ relation path value) : ListsByPath relation [] :=
  ⟨[], .nil, fun path value => by simp [empty path value], rfl⟩

theorem singleton (path : List Nat) {value : α}
    (only : ∀ path' value', relation path' value' ↔ path' = path ∧ value' = value) :
    ListsByPath relation [value] :=
  ⟨[(path, value)], List.pairwise_singleton _ _,
    fun path' value' => by simp [only path' value'], rfl⟩

theorem map (lists : ListsByPath relation values) (change : α → β) :
    ListsByPath (fun path value => ∃ old, relation path old ∧ change old = value)
      (values.map change) := by
  obtain ⟨pairs, ordered, isPair, rfl⟩ := lists
  refine ⟨pairs.map fun pair => (pair.1, change pair.2), List.pairwise_map.2 ordered, ?_, by simp⟩
  intro path value
  simp [← isPair]

/-- What comes before in the order of the ways is listed before. -/
theorem append (first : ListsByPath relation values) (second : ListsByPath other more)
    (before : ∀ path path' value value', relation path value → other path' value' → path < path') :
    ListsByPath (fun path value => relation path value ∨ other path value) (values ++ more) := by
  obtain ⟨pairs, ordered, isPair, rfl⟩ := first
  obtain ⟨pairs', ordered', isPair', rfl⟩ := second
  refine ⟨pairs ++ pairs', List.pairwise_append.2 ⟨ordered, ordered', ?_⟩, ?_, List.map_append⟩
  · rintro ⟨path, value⟩ member ⟨path', value'⟩ member'
    exact before _ _ _ _ ((isPair _ _).1 member) ((isPair' _ _).1 member')
  · intro path value
    rw [List.mem_append, isPair, isPair']

/-- One step more stands before all ways. -/
theorem below (lists : ListsByPath relation values) (number : Nat) :
    ListsByPath (fun path value => ∃ inner, number :: inner = path ∧ relation inner value)
      values := by
  obtain ⟨pairs, ordered, isPair, rfl⟩ := lists
  refine ⟨pairs.map fun pair => (number :: pair.1, pair.2), ?_, ?_, by simp⟩
  · exact List.pairwise_map.2 (ordered.imp List.Lex.cons)
  · intro path value
    simp only [List.mem_map, Prod.mk.injEq, Prod.exists, ← isPair]
    constructor
    · rintro ⟨inner, _, member, isPath, rfl⟩
      exact ⟨inner, isPath, member⟩
    · rintro ⟨inner, isPath, member⟩
      exact ⟨inner, value, member, isPath, rfl⟩

/-- The lists of parts follow each other in the order of the parts. -/
theorem parts {γ : Type} {children : List γ} {within : γ → List Nat → α → Prop}
    {listed : γ → List α} (each : ∀ child ∈ children, ListsByPath (within child) (listed child)) :
    ListsByPath (fun path value => ∃ index child inner, index :: inner = path ∧
      children[index]? = some child ∧ within child inner value) (children.flatMap listed) := by
  induction children using List.reverseRecOn with
  | nil => exact nil (by simp)
  | append_singleton before last ih =>
    have earlier := ih fun child member =>
      each child (List.mem_append_left _ member)
    have later := (each last (by simp)).below before.length
    rw [List.flatMap_append, List.flatMap_singleton]
    refine (earlier.append later ?_).congr fun path value => ?_
    · rintro _ _ value value' ⟨index, child, inner, rfl, isChild, _⟩ ⟨_, rfl, _⟩
      exact List.Lex.rel (List.getElem?_eq_some_iff.1 isChild).1
    · constructor
      · rintro (⟨index, child, inner, isPath, isChild, holds⟩ | ⟨inner, isPath, holds⟩)
        · have inside := (List.getElem?_eq_some_iff.1 isChild).1
          exact ⟨index, child, inner, isPath, by rwa [List.getElem?_append_left inside], holds⟩
        · exact ⟨before.length, last, inner, isPath, by simp, holds⟩
      · rintro ⟨index, child, inner, isPath, isChild, holds⟩
        rcases Nat.lt_or_ge index before.length with inside | outside
        · rw [List.getElem?_append_left inside] at isChild
          exact Or.inl ⟨index, child, inner, isPath, isChild, holds⟩
        · rw [List.getElem?_append_right outside, List.getElem?_singleton] at isChild
          split at isChild
          · next isLast =>
            cases isChild
            obtain rfl : index = before.length := by omega
            exact Or.inr ⟨inner, isPath, holds⟩
          · cases isChild

end ListsByPath

end Codemod
