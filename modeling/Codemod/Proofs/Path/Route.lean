import Codemod.Files.Tree

/-!
# Where paths lead

A path is followed part by part, from the root if it starts with a slash and
from a directory otherwise.  `Leads` says where it gets, whether or not
something stands there.  Joining one more part to a path takes the way on from
where the path leads; and a path that never goes up leads to the place that its
names spell.
-/

namespace Codemod

namespace Text

theorem split_append_slash (first second : String) :
    split '/' (first ++ "/" ++ second) = split '/' first ++ split '/' second := by
  have chars : (first ++ "/" ++ second).toList = first.toList ++ '/' :: second.toList := by
    simp
  rw [split, chars, List.splitOn_append_cons_self, List.map_append, split, split]

theorem split_eq_singleton {part : String} (noSlash : '/' ∉ part.toList) :
    split '/' part = [part] := by
  rw [split, List.splitOn_eq_singleton noSlash, List.map_singleton, String.ofList_toList]

theorem split_ne_nil (separator : Char) (text : String) : split separator text ≠ [] := by
  rw [split, ne_eq, List.map_eq_nil_iff]
  exact List.splitOn_ne_nil _ _

theorem split_empty : split '/' "" = [""] :=
  split_eq_singleton (by simp)

/-- Only a text without anything is split into an empty part alone. -/
theorem eq_empty_of_split {text : String} (parts : split '/' text = [""]) : text = "" := by
  rw [split, List.map_eq_singleton_iff] at parts
  obtain ⟨piece, pieces, isEmpty⟩ := parts
  have whole : ['/'].intercalate (text.toList.splitOn '/') = text.toList :=
    List.intercalate_splitOn '/'
  rw [pieces, List.intercalate_singleton] at whole
  rw [← String.ofList_toList (s := text), ← whole]
  exact isEmpty

end Text

namespace FileTree

variable {tree : FileTree} {location middle : Location}

theorem follow_append (tree : FileTree) (location : Location) (first second : List String) :
    tree.follow location (first ++ second) =
      (tree.follow location first).bind fun reached => tree.follow reached second := by
  induction first generalizing location with
  | nil => rfl
  | cons part rest ih =>
    simp only [List.cons_append, follow]
    repeat' split
    all_goals first | rfl | exact ih _

theorem follow_append_eq_ok_iff {first second : List String} :
    tree.follow location (first ++ second) = .ok middle ↔
      ∃ reached, tree.follow location first = .ok reached ∧
        tree.follow reached second = .ok middle := by
  rw [follow_append]
  cases tree.follow location first <;> simp [Except.bind]

/-- A part that stands for no step is followed from a directory only. -/
theorem follow_blank {part : String} (blank : part = "" ∨ part = ".") :
    tree.follow location [part] = .ok middle ↔
      middle = location ∧ tree.isFile location = false ∧ tree.isDirectory location = true := by
  have isBlank : (part == "" || part == ".") = true := by simpa using blank
  simp only [follow, isBlank, if_true]
  cases tree.isFile location <;> cases tree.isDirectory location <;> simp [eq_comm]

theorem follow_parent : tree.follow location [".."] = .ok middle ↔
      middle = location.dropLast ∧ tree.isFile location = false ∧
        tree.isDirectory location = true := by
  simp only [follow]
  cases tree.isFile location <;> cases tree.isDirectory location <;> simp [eq_comm]

theorem follow_name {name : String} (notBlank : name ≠ "" ∧ name ≠ ".") (notParent : name ≠ "..") :
    tree.follow location [name] = .ok middle ↔
      middle = location ++ [name] ∧ tree.isFile location = false ∧
        tree.isDirectory location = true := by
  have isName : (name == "" || name == ".") = false := by simp [notBlank]
  have staysBelow : (name == "..") = false := by simp [notParent]
  simp only [follow, isName, staysBelow]
  cases tree.isFile location <;> cases tree.isDirectory location <;> simp [eq_comm]

end FileTree

namespace Path

/-- Where a path starts, seen from a directory, and the parts to follow from there. -/
def route (directory : Location) (path : String) : Location × List String :=
  match Text.split '/' path with
  | "" :: part :: rest => ([], part :: rest)
  | parts => (directory, parts)

variable {directory : Location} {path part : String}

theorem route_of_split {start : String} {parts : List String}
    (isSplit : Text.split '/' path = start :: parts) :
    route directory path =
      if start = "" ∧ parts ≠ [] then ([], parts) else (directory, start :: parts) := by
  rw [route, isSplit]
  cases parts with
  | nil => split <;> simp_all
  | cons first rest => split <;> simp_all

theorem route_eq_of_noSlash (noSlash : '/' ∉ part.toList) :
    route directory part = (directory, [part]) := by
  rw [route_of_split (Text.split_eq_singleton noSlash)]
  simp

theorem exists_split (path : String) : ∃ start parts, Text.split '/' path = start :: parts :=
  List.exists_cons_of_ne_nil (Text.split_ne_nil '/' path)

/-- A further part is followed behind the others. -/
theorem route_append_slash (noSlash : '/' ∉ part.toList) (notEmpty : path ≠ "") :
    route directory (path ++ "/" ++ part) =
      ((route directory path).1, (route directory path).2 ++ [part]) := by
  obtain ⟨start, parts, isSplit⟩ := exists_split path
  have joined : Text.split '/' (path ++ "/" ++ part) = start :: (parts ++ [part]) := by
    rw [Text.split_append_slash, isSplit, Text.split_eq_singleton noSlash, List.cons_append]
  rw [route_of_split joined, route_of_split isSplit]
  by_cases isRoot : start = ""
  · have isLonger : parts ≠ [] := by
      rintro rfl
      exact notEmpty (Text.eq_empty_of_split (isRoot ▸ isSplit))
    simp [isRoot, isLonger]
  · simp [isRoot]

end Path

namespace FileTree

/-- A path leads to a location. -/
def Leads (tree : FileTree) (directory : Location) (path : String) (location : Location) :
    Prop :=
  tree.follow (Path.route directory path).1 (Path.route directory path).2 = .ok location

variable {tree : FileTree} {directory location reached : Location} {path part : String}

theorem locate_eq_ok_iff : tree.locate directory path = .ok location ↔
      path ≠ "" ∧ tree.Leads directory path location ∧ tree.hasEntry location = true := by
  obtain ⟨start, parts, isSplit⟩ := Path.exists_split path
  rw [locate, Leads, Path.route_of_split isSplit, isSplit]
  by_cases isEmpty : path = ""
  · rw [isEmpty, Text.split_empty] at isSplit
    cases isSplit
    simp [isEmpty]
  · have notAlone : start = "" → parts ≠ [] := by
      rintro rfl rfl
      exact isEmpty (Text.eq_empty_of_split isSplit)
    by_cases isRoot : start = ""
    · subst isRoot
      obtain ⟨first, rest, rfl⟩ := List.exists_cons_of_ne_nil (notAlone rfl)
      cases followed : tree.follow [] (first :: rest) <;> simp [isEmpty, followed]
      grind
    · cases followed : tree.follow directory (start :: parts) <;>
        simp [isEmpty, isRoot, followed]
      grind

theorem leads_of_noSlash (noSlash : '/' ∉ part.toList) :
    tree.Leads directory part location ↔ tree.follow directory [part] = .ok location := by
  rw [Leads, Path.route_eq_of_noSlash noSlash]

/-- A slash at the end of a path is where the next part goes. -/
theorem Leads.join_slash (leads : tree.Leads directory (path ++ "/") location)
    (noSlash : '/' ∉ part.toList) (next : tree.follow location [part] = .ok reached) :
    tree.Leads directory (path ++ "/" ++ part) reached := by
  have ended : path ++ "/" = path ++ "/" ++ "" := by simp
  rw [ended] at leads
  by_cases isEmpty : path = ""
  · have atRoot : ∀ {name : String}, '/' ∉ name.toList →
        Path.route directory (path ++ "/" ++ name) = ([], [name]) := by
      intro name noSlash
      have isSplit : Text.split '/' (path ++ "/" ++ name) = ["", name] := by
        rw [Text.split_append_slash, isEmpty, Text.split_empty, Text.split_eq_singleton noSlash]
        rfl
      rw [Path.route_of_split isSplit]
      simp
    rw [Leads, atRoot (by simp)] at leads
    obtain ⟨rfl, _⟩ := (follow_blank (Or.inl rfl)).1 leads
    rw [Leads, atRoot noSlash]
    exact next
  · rw [Leads, Path.route_append_slash (by simp) isEmpty] at leads
    obtain ⟨middle, before, stays⟩ := follow_append_eq_ok_iff.1 leads
    obtain ⟨rfl, _⟩ := (follow_blank (Or.inl rfl)).1 stays
    rw [Leads, Path.route_append_slash noSlash isEmpty]
    exact follow_append_eq_ok_iff.2 ⟨_, before, next⟩

/-- One more part takes the way on from where a path leads. -/
theorem Leads.join (leads : tree.Leads directory path location) (noSlash : '/' ∉ part.toList)
    (next : tree.follow location [part] = .ok reached) :
    tree.Leads directory (Path.join path part) reached := by
  rw [Path.join]
  by_cases isEmpty : path = ""
  · subst isEmpty
    have stays := (leads_of_noSlash (by simp)).1 leads
    obtain ⟨rfl, _⟩ := (follow_blank (Or.inl rfl)).1 stays
    simpa [leads_of_noSlash noSlash] using next
  · by_cases isEnded : path.toList.getLast? = some '/'
    · obtain ⟨chars, isChars⟩ := List.getLast?_eq_some_iff.1 isEnded
      have isPath : path = String.ofList chars ++ "/" := by
        rw [← String.ofList_toList (s := path), isChars, String.ofList_append]
      simp only [isEnded, beq_self_eq_true, Bool.or_true, if_true]
      rw [isPath] at leads ⊢
      exact leads.join_slash noSlash next
    · simp only [isEmpty, isEnded, beq_iff_eq, Bool.or_eq_true, or_self, if_false]
      rw [Leads, Path.route_append_slash noSlash isEmpty]
      exact follow_append_eq_ok_iff.2 ⟨location, leads, next⟩

end FileTree

/-! ## The names that a path spells -/

/-- Whether a part stands for no step. -/
def Path.isBlank (part : String) : Bool :=
  part == "" || part == "."

namespace PathComponent

theorem ofPart?_of_isBlank {part : String} (blank : Path.isBlank part = true) :
    ofPart? part = none := by
  rw [ofPart?]
  exact if_pos blank

theorem ofPart?_of_notBlank {part : String} (notBlank : Path.isBlank part = false) :
    ofPart? part = some (if part = ".." then parent else name part) := by
  have isStep : ¬ (part == "" || part == ".") = true := by
    rw [Bool.not_eq_true]
    exact notBlank
  rw [ofPart?, if_neg isStep]
  by_cases isParent : part = ".." <;> simp [isParent]

/-- Parts that do not go up stand for names. -/
theorem filterMap_ofPart? {parts : List String} (stays : parent ∉ parts.filterMap ofPart?) :
    ".." ∉ parts ∧
      parts.filterMap ofPart? = (parts.filter fun part => !Path.isBlank part).map name := by
  induction parts with
  | nil => simp
  | cons part rest ih =>
    cases blank : Path.isBlank part with
    | true =>
      rw [List.filterMap_cons_none (ofPart?_of_isBlank blank)] at stays ⊢
      obtain ⟨below, names⟩ := ih stays
      have notParent : ".." ≠ part := by
        rintro rfl
        exact absurd blank (by decide)
      exact ⟨by simp [notParent, below], by simp [blank, names]⟩
    | false =>
      rw [List.filterMap_cons_some (ofPart?_of_notBlank blank), List.mem_cons, not_or] at stays
      have notParent : part ≠ ".." := by
        rintro rfl
        exact stays.1 rfl
      obtain ⟨below, names⟩ := ih stays.2
      rw [List.filterMap_cons_some (ofPart?_of_notBlank blank)]
      exact ⟨by simp [Ne.symm notParent, below], by simp [blank, notParent, names]⟩

end PathComponent

/-- Following parts that do not go up adds their names. -/
theorem FileTree.eq_append_of_follow {tree : FileTree} {location reached : Location}
    {parts : List String} (below : ".." ∉ parts)
    (followed : tree.follow location parts = .ok reached) :
    reached = location ++ parts.filter fun part => !Path.isBlank part := by
  induction parts generalizing location with
  | nil =>
    cases followed
    simp
  | cons part rest ih =>
    rw [List.mem_cons, not_or] at below
    rw [← List.singleton_append] at followed
    obtain ⟨next, step, remaining⟩ := follow_append_eq_ok_iff.1 followed
    have result := ih below.2 remaining
    cases blank : Path.isBlank part with
    | true =>
      have isBlank : part = "" ∨ part = "." := by simpa [Path.isBlank] using blank
      obtain ⟨rfl, _⟩ := (follow_blank isBlank).1 step
      simpa [blank] using result
    | false =>
      have notBlank : part ≠ "" ∧ part ≠ "." := by simpa [Path.isBlank] using blank
      obtain ⟨rfl, _⟩ := (follow_name notBlank (Ne.symm below.1)).1 step
      simpa [blank] using result

namespace Path

/-- The start of a path, if it is not a name: the root or the current directory. -/
def start? (path : String) : Option PathComponent :=
  (components path).head?.filter fun component => component == .root || component == .here

/-- Where a path is followed from. -/
def base (directory : Location) (path : String) : Location :=
  if start? path = some .root then [] else directory

variable {path : String}

theorem components_of_split {first : String} {rest : List String} (notEmpty : path ≠ "")
    (isSplit : Text.split '/' path = first :: rest) :
    components path = (if first = "" then some .root else PathComponent.ofFirst? first).toList ++
        rest.filterMap PathComponent.ofPart? := by
  have isPath : (path == "") = false := by simp [notEmpty]
  rw [components, isPath, isSplit]
  by_cases isRoot : first = ""
  · simp [isRoot]
  · simp [isRoot]

/-- A path that never goes up leads to the place that its names spell. -/
theorem exists_names {tree : FileTree} {directory location : Location} (notEmpty : path ≠ "")
    (stays : .parent ∉ components path) (leads : tree.Leads directory path location) :
    ∃ names, components path = (start? path).toList ++ names.map .name ∧
      location = base directory path ++ names := by
  obtain ⟨first, rest, isSplit⟩ := exists_split path
  have isComponents := components_of_split notEmpty isSplit
  rw [isComponents, List.mem_append, not_or] at stays
  obtain ⟨below, names⟩ := PathComponent.filterMap_ofPart? stays.2
  rw [FileTree.Leads, route_of_split isSplit] at leads
  by_cases isRoot : first = ""
  · have isLonger : rest ≠ [] := by
      rintro rfl
      exact notEmpty (Text.eq_empty_of_split (isRoot ▸ isSplit))
    rw [if_pos ⟨isRoot, isLonger⟩] at leads
    rw [if_pos isRoot, names] at isComponents
    have isStart : start? path = some .root := by simp [start?, isComponents]
    refine ⟨rest.filter fun part => !isBlank part, ?_, ?_⟩
    · rw [isComponents, isStart]
    · rw [base, if_pos isStart]
      exact FileTree.eq_append_of_follow below leads
  · rw [if_neg (not_and_of_not_left _ isRoot)] at leads
    rw [if_neg isRoot, names] at isComponents
    rw [if_neg isRoot] at stays
    have notParent : first ≠ ".." := by
      rintro rfl
      exact stays.1 (by decide)
    have reached := FileTree.eq_append_of_follow
      (by simp [Ne.symm notParent, below]) leads
    by_cases isHere : first = "."
    · subst isHere
      have isStart : start? path = some .here := by
        simp [start?, isComponents, PathComponent.ofFirst?]
      refine ⟨rest.filter fun part => !isBlank part, ?_, ?_⟩
      · rw [isComponents, isStart]
        rfl
      · simpa [base, isStart, isBlank] using reached
    · have isName : PathComponent.ofFirst? first = some (.name first) := by
        simp [PathComponent.ofFirst?, PathComponent.ofPart?, isHere, isRoot, notParent]
      have isStart : start? path = none := by simp [start?, isComponents, isName]
      refine ⟨first :: rest.filter fun part => !isBlank part, ?_, ?_⟩
      · simp [isComponents, isStart, isName]
      · simpa [base, isStart, isBlank, isRoot, isHere] using reached

/-- Two paths that start alike and never go up lead to one place only if they are the same. -/
theorem components_eq_of_leads {tree : FileTree} {directory location : Location}
    {first second : String} (firstPath : first ≠ "") (secondPath : second ≠ "")
    (firstStays : .parent ∉ components first) (secondStays : .parent ∉ components second)
    (startAlike : start? first = start? second)
    (firstLeads : tree.Leads directory first location)
    (secondLeads : tree.Leads directory second location) :
    components first = components second := by
  obtain ⟨names, isFirst, reached⟩ := exists_names firstPath firstStays firstLeads
  obtain ⟨others, isSecond, same⟩ := exists_names secondPath secondStays secondLeads
  rw [base, startAlike, ← base, same, List.append_cancel_left_eq] at reached
  rw [isFirst, isSecond, startAlike, reached]

end Path

end Codemod
