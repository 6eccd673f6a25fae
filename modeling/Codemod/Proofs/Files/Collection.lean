import Codemod.Proofs.Command.Effects
import Codemod.Proofs.Path.Order
import Codemod.Proofs.Path.Route

/-!
# Collected files

What patterns name is found by walks and by globs.  Either way a path comes
with the place that it leads to (`Found.IsNamed`), step by step along the
pattern and the tree.  Together with the order of paths this says what a list of
collected files is: increasing, made of source paths only, each of which names
an entry.

Two things can be in such a list that one might not look for.  A glob takes a
directory whose name has the extension of a source file, which a walk does not.
And a file is listed twice if it is reached by paths that start differently,
since paths are told apart by their components and not by where they lead.
-/

namespace Codemod

namespace FileTree

/-- Whether a text can be the name of an entry. -/
def isEntryName (name : String) : Bool :=
  name != "" && name != "." && name != ".." && !name.toList.contains '/'

/-- Whether all entries of a tree have names and nothing stands below a file. -/
def isProper (tree : FileTree) : Bool :=
  (tree.given.all fun location => location.all isEntryName) &&
    tree.files.all fun file => !tree.isDirectory file.1

variable {tree : FileTree} {location : Location} {name : String}

theorem isEntryName_iff : isEntryName name = true ↔
      (name ≠ "" ∧ name ≠ ".") ∧ name ≠ ".." ∧ '/' ∉ name.toList := by
  simp [isEntryName, and_assoc]

theorem isFile_iff : tree.isFile location = true ↔ ∃ file ∈ tree.files, file.1 = location := by
  simp [isFile_eq]

theorem isDirectory_iff : tree.isDirectory location = true ↔
      location = [] ∨ location ∈ tree.directories ∨
        ∃ other ∈ tree.given, location <+: other ∧ location ≠ other := by
  simp [isDirectory, or_assoc]

theorem hasEntry_iff : tree.hasEntry location = true ↔
      tree.isFile location = true ∨ tree.isDirectory location = true := by
  simp [hasEntry]

theorem hasEntry_of_mem_given (member : location ∈ tree.given) : tree.hasEntry location = true := by
  rw [hasEntry_iff, isFile_iff, isDirectory_iff]
  rcases List.mem_append.1 member with isFile | isDirectory
  · obtain ⟨file, isListed, rfl⟩ := List.mem_map.1 isFile
    exact Or.inl ⟨file, isListed, rfl⟩
  · exact Or.inr (Or.inr (Or.inl isDirectory))

/-- Where something stands is the root, or on the way to a given entry. -/
theorem hasEntry_cases (isEntry : tree.hasEntry location = true) :
    location = [] ∨ ∃ other ∈ tree.given, location <+: other := by
  rcases hasEntry_iff.1 isEntry with isFile | isDirectory
  · obtain ⟨file, member, rfl⟩ := isFile_iff.1 isFile
    exact Or.inr ⟨file.1, List.mem_append_left _ (List.mem_map_of_mem member), List.prefix_refl _⟩
  · rcases isDirectory_iff.1 isDirectory with isRoot | isGiven | ⟨other, isGiven, before, _⟩
    · exact Or.inl isRoot
    · exact Or.inr ⟨location, List.mem_append_right _ isGiven, List.prefix_refl _⟩
    · exact Or.inr ⟨other, isGiven, before⟩

/-- What has something below it is a directory. -/
theorem isDirectory_of_hasEntry_append {names : List String} (notEmpty : names ≠ [])
    (isEntry : tree.hasEntry (location ++ names) = true) :
    tree.isDirectory location = true := by
  rw [isDirectory_iff]
  rcases hasEntry_cases isEntry with isRoot | ⟨other, isGiven, before⟩
  · exact Or.inl (List.append_eq_nil_iff.1 isRoot).1
  · refine Or.inr (Or.inr ⟨other, isGiven, (List.prefix_append _ _).trans before, ?_⟩)
    rintro rfl
    have shorter := before.length_le
    rw [List.length_append] at shorter
    have positive := List.length_pos_iff.2 notEmpty
    omega

theorem hasEntry_of_append {names : List String}
    (isEntry : tree.hasEntry (location ++ names) = true) : tree.hasEntry location = true := by
  by_cases isEmpty : names = []
  · simpa [isEmpty] using isEntry
  · exact hasEntry_iff.2 (Or.inr (isDirectory_of_hasEntry_append isEmpty isEntry))

theorem isDirectory_dropLast (isDirectory : tree.isDirectory location = true) :
    tree.isDirectory location.dropLast = true := by
  by_cases isRoot : location = []
  · simpa [isRoot] using isDirectory
  · apply isDirectory_of_hasEntry_append (List.cons_ne_nil (location.getLast isRoot) [])
    rw [List.dropLast_concat_getLast]
    exact hasEntry_iff.2 (Or.inr isDirectory)

section Proper

variable (proper : tree.isProper = true)

include proper

theorem isEntryName_of_hasEntry (isEntry : tree.hasEntry location = true)
    (member : name ∈ location) : isEntryName name = true := by
  rw [isProper, Bool.and_eq_true] at proper
  rcases hasEntry_cases isEntry with rfl | ⟨other, isGiven, before⟩
  · cases member
  · exact List.all_eq_true.1 (List.all_eq_true.1 proper.1 other isGiven) name (before.subset member)

theorem isFile_eq_false_of_isDirectory (isDirectory : tree.isDirectory location = true) :
    tree.isFile location = false := by
  rw [isProper, Bool.and_eq_true] at proper
  rw [← Bool.not_eq_true, isFile_iff]
  rintro ⟨file, member, rfl⟩
  have isLeaf := List.all_eq_true.1 proper.2 file member
  simp [isDirectory] at isLeaf

/-- The name of an entry leads from its directory to the entry. -/
theorem follow_entry (isEntry : tree.hasEntry (location ++ [name]) = true) :
    tree.follow location [name] = .ok (location ++ [name]) := by
  have isName := isEntryName_iff.1
    (isEntryName_of_hasEntry proper isEntry (List.mem_append_right location List.mem_cons_self))
  have isDirectory := isDirectory_of_hasEntry_append (List.cons_ne_nil _ _) isEntry
  exact (follow_name isName.1 isName.2.1).2
    ⟨rfl, isFile_eq_false_of_isDirectory proper isDirectory, isDirectory⟩

theorem noSlash_of_hasEntry (isEntry : tree.hasEntry (location ++ [name]) = true) :
    '/' ∉ name.toList :=
  (isEntryName_iff.1 (isEntryName_of_hasEntry proper isEntry
    (List.mem_append_right location List.mem_cons_self))).2.2

/-- Names put to a path one by one lead to where they spell, however they are put to it. -/
theorem Leads.foldl {directory : Location} {path : String} {put : String → String → String}
    (keeps : ∀ {path part : String} {location reached : Location},
      tree.Leads directory path location → '/' ∉ part.toList →
        tree.follow location [part] = .ok reached → tree.Leads directory (put path part) reached)
    (leads : tree.Leads directory path location) {names : List String}
    (isEntry : tree.hasEntry (location ++ names) = true) :
    tree.Leads directory (names.foldl put path) (location ++ names) := by
  induction names generalizing location path with
  | nil => simpa using leads
  | cons first rest ih =>
    rw [List.append_cons] at isEntry ⊢
    have isNext := hasEntry_of_append isEntry
    exact ih
      (keeps leads (noSlash_of_hasEntry proper isNext) (follow_entry proper isNext)) isEntry

end Proper

/-- What is listed below a directory stands below it. -/
theorem exists_names_of_mem_entriesBelow {directory : Location}
    (member : location ∈ tree.entriesBelow directory) :
    ∃ names, location = directory ++ names ∧ tree.hasEntry location = true := by
  rw [entriesBelow, List.mem_eraseDups] at member
  obtain ⟨other, isGiven, isBetween⟩ := List.mem_flatMap.1 member
  rw [between] at isBetween
  split at isBetween
  · rename_i isBelow
    obtain ⟨names, rfl⟩ := List.isPrefixOf_iff_prefix.1 isBelow
    obtain ⟨count, _, rfl⟩ := List.mem_map.1 isBetween
    refine ⟨names.take (count + 1), ?_, ?_⟩
    · rw [Nat.add_assoc, List.take_length_add_append]
    · have whole := hasEntry_of_mem_given isGiven
      rw [← List.take_append_drop (directory.length + count + 1) (directory ++ names)] at whole
      exact hasEntry_of_append whole
  · cases isBetween

end FileTree

/-! ## Walks -/

namespace Files

open FileTree

variable {tree : FileTree} {directory : Location} {path : String}

/-- A walk finds files. -/
theorem exists_isFile_of_mem_walk (proper : tree.isProper = true) {start : String}
    (member : path ∈ walk tree directory start) :
    ∃ location, tree.Leads directory path location ∧ tree.isFile location = true := by
  rw [walk] at member
  split at member
  · cases member
  · rename_i location located
    obtain ⟨_, leads, _⟩ := locate_eq_ok_iff.1 located
    split at member
    · rename_i isFile
      rw [List.mem_singleton] at member
      exact ⟨location, member ▸ leads, isFile⟩
    · obtain ⟨file, isReached, rfl⟩ := List.mem_map.1 member
      obtain ⟨isBelow, _⟩ := List.mem_filter.1 isReached
      rw [filesBelow, List.mem_filter, Bool.and_eq_true] at isBelow
      obtain ⟨isGiven, before, _⟩ := isBelow
      obtain ⟨names, rfl⟩ := List.isPrefixOf_iff_prefix.1 before
      have isEntry := hasEntry_of_mem_given (List.mem_append_left tree.directories isGiven)
      refine ⟨location ++ names, ?_, ?_⟩
      · rw [List.drop_left]
        exact leads.foldl proper (fun leads noSlash next => leads.join noSlash next) isEntry
      · obtain ⟨entry, isEntry, same⟩ := List.mem_map.1 isGiven
        exact isFile_iff.2 ⟨entry, isEntry, same⟩

end Files

/-! ## Globs -/

/-- The path of what was found leads to its place, and something stands there. -/
structure Found.IsNamed (found : Found) (tree : FileTree) (directory : Location) : Prop where
  leads : tree.Leads directory found.path found.location
  isEntry : tree.hasEntry found.location = true

namespace Glob

open FileTree

variable {tree : FileTree} {directory : Location} {found next : Found}

/-- A path that is only the current directory leads to it. -/
theorem leads_extend {path part : String} {location reached : Location}
    (leads : tree.Leads directory path location) (noSlash : '/' ∉ part.toList)
    (followed : tree.follow location [part] = .ok reached) :
    tree.Leads directory (extend path part) reached := by
  rw [extend]
  split
  · rename_i isHere
    rw [beq_iff_eq] at isHere
    have notEmpty : path ≠ "" := by
      rintro rfl
      cases isHere
    obtain ⟨names, isPath, isLocation⟩ := Path.exists_names notEmpty (by simp [isHere]) leads
    have isStart : Path.start? path = some .here := by simp [Path.start?, isHere]
    have noNames : names = [] := by simpa [isHere, isStart] using isPath
    rw [Path.base, isStart, noNames, if_neg (by rintro ⟨⟩), List.append_nil] at isLocation
    rw [leads_of_noSlash noSlash, ← isLocation]
    exact followed
  · exact leads.join noSlash followed

section Proper

variable (proper : tree.isProper = true)

include proper

/-- Steps to a directory itself and to the one above it. -/
theorem leads_special (isDirectory : tree.isDirectory found.location = true) {name : String}
    (isSpecial : name = "." ∨ name = ".." ∨ name = "") :
    '/' ∉ name.toList ∧
      tree.follow found.location [name] = .ok (specialLocation found.location name) ∧
      tree.hasEntry (specialLocation found.location name) = true := by
  have isFile := isFile_eq_false_of_isDirectory proper isDirectory
  have isEntry := hasEntry_iff.2 (Or.inr isDirectory)
  rcases isSpecial with rfl | rfl | rfl
  · exact ⟨by decide, (follow_blank (Or.inr rfl)).2 ⟨rfl, isFile, isDirectory⟩, isEntry⟩
  · exact ⟨by decide, follow_parent.2 ⟨rfl, isFile, isDirectory⟩,
      hasEntry_iff.2 (Or.inr (isDirectory_dropLast isDirectory))⟩
  · exact ⟨by decide, (follow_blank (Or.inl rfl)).2 ⟨rfl, isFile, isDirectory⟩, isEntry⟩

section

variable (named : found.IsNamed tree directory)
include named

theorem isNamed_below {location : Location} (member : location ∈ tree.entriesBelow found.location) :
    Found.IsNamed ⟨extendAll found.path (location.drop found.location.length), location⟩
      tree directory := by
  obtain ⟨names, rfl, isEntry⟩ := exists_names_of_mem_entriesBelow member
  refine ⟨?_, isEntry⟩
  rw [List.drop_left]
  exact named.leads.foldl proper leads_extend isEntry

theorem isNamed_plainStep {name : String} (member : next ∈ plainStep tree found name) :
    next.IsNamed tree directory := by
  rw [plainStep] at member
  split at member
  · rename_i special
    have isSpecial : name = "." ∨ name = ".." ∨ name = "" := by
      simpa [or_assoc] using special
    split at member
    · rename_i isDirectory
      rw [List.mem_singleton] at member
      obtain ⟨noSlash, followed, isEntry⟩ := leads_special proper isDirectory isSpecial
      rw [member]
      exact ⟨leads_extend named.leads noSlash followed, isEntry⟩
    · cases member
  · split at member
    · rename_i isEntry
      rw [List.mem_singleton] at member
      rw [member]
      exact ⟨leads_extend named.leads (noSlash_of_hasEntry proper isEntry)
        (follow_entry proper isEntry), isEntry⟩
    · cases member

theorem isNamed_deepStep {parts : List GlobPart} (member : next ∈ deepStep tree found parts) :
    next.IsNamed tree directory := by
  obtain ⟨location, isBelow, rfl⟩ := List.mem_map.1 member
  exact isNamed_below proper named (List.mem_filter.1 isBelow).1

theorem isNamed_directoriesBelow (member : next ∈ directoriesBelow tree found) :
    next.IsNamed tree directory := by
  obtain ⟨location, isBelow, rfl⟩ := List.mem_map.1 member
  exact isNamed_below proper named (List.mem_filter.1 isBelow).1

theorem isNamed_nameStep {parts : List GlobPart}
    (isDirectory : tree.isDirectory found.location = true)
    (member : next ∈ nameStep tree found parts) : next.IsNamed tree directory := by
  rcases List.mem_append.1 member with isChild | isSpecial
  · obtain ⟨location, isMatch, rfl⟩ := List.mem_map.1 isChild
    exact isNamed_below proper named (List.mem_filter.1 (List.mem_filter.1 isMatch).1).1
  · obtain ⟨name, isName, rfl⟩ := List.mem_map.1 isSpecial
    have isSpecial : name = "." ∨ name = ".." ∨ name = "" := by
      rw [specialNames] at isName
      split at isName
      · have isListed := (List.mem_filter.1 isName).1
        simp only [List.mem_cons, List.not_mem_nil, or_false] at isListed
        rcases isListed with rfl | rfl
        · exact Or.inl rfl
        · exact Or.inr (Or.inl rfl)
      · cases isName
    obtain ⟨noSlash, followed, isEntry⟩ := leads_special proper isDirectory isSpecial
    exact ⟨named.leads.join noSlash followed, isEntry⟩

/-- What components of a pattern lead to from a named entry is named. -/
theorem isNamed_expandFrom {afterDeep : Bool} {components : List (List GlobPart)}
    (member : next ∈ expandFrom tree afterDeep components found) :
    next.IsNamed tree directory := by
  induction components generalizing afterDeep found with
  | nil =>
    cases afterDeep with
    | true => exact isNamed_directoriesBelow proper named member
    | false =>
      rw [expandFrom, List.mem_singleton] at member
      rw [member]
      exact named
  | cons parts rest ih =>
    rw [expandFrom] at member
    split at member
    · exact ih named member
    · split at member
      · obtain ⟨middle, isMiddle, isLast⟩ := List.mem_flatMap.1 member
        split at isMiddle
        · exact ih (isNamed_deepStep proper named isMiddle) isLast
        · cases isMiddle
      · split at member
        · obtain ⟨middle, isMiddle, isLast⟩ := List.mem_flatMap.1 member
          exact ih (isNamed_plainStep proper named isMiddle) isLast
        · obtain ⟨middle, isMiddle, isLast⟩ := List.mem_flatMap.1 member
          split at isMiddle
          · rename_i isDirectory
            exact ih (isNamed_nameStep proper named isDirectory isMiddle) isLast
          · cases isMiddle

end

/-- Everything that a pattern names is where its path leads. -/
theorem isNamed_expand (isDirectory : tree.isDirectory directory = true)
    {pattern : List Char} (member : found ∈ expand tree directory pattern) :
    found.IsNamed tree directory := by
  have atRoot : Found.IsNamed ⟨"/", []⟩ tree directory := by
    have isRoot : tree.isDirectory [] = true := isDirectory_iff.2 (Or.inl rfl)
    have isFile := isFile_eq_false_of_isDirectory proper isRoot
    refine ⟨?_, hasEntry_iff.2 (Or.inr isRoot)⟩
    exact (follow_blank (Or.inl rfl)).2 ⟨rfl, isFile, isRoot⟩
  have atDirectory : Found.IsNamed ⟨".", directory⟩ tree directory := by
    have isFile := isFile_eq_false_of_isDirectory proper isDirectory
    refine ⟨?_, hasEntry_iff.2 (Or.inr isDirectory)⟩
    apply (leads_of_noSlash (by simp)).2
    exact (follow_blank (Or.inr rfl)).2 ⟨rfl, isFile, isDirectory⟩
  unfold expand at member
  split at member
  rename_i start relative isStart
  have named : start.IsNamed tree directory := by
    split at isStart
    · cases isStart
      exact atRoot
    · cases isStart
      exact atDirectory
  dsimp only at member
  split at member
  · exact isNamed_expandFrom proper named (List.mem_filter.1 member).1
  · cases member

end Proper

end Glob

/-! ## Lists of files -/

namespace Files

open FileTree

variable {tree : FileTree} {directory : Location} {path pattern : String}

theorem isSource_iff : isSource path = true ↔
      (∃ extension ∈ sourceExtensions, Path.extension? path = some extension) ∧
        .name "node_modules" ∉ Path.components path := by
  simp [isSource, Option.any_eq_true, and_comm]

/-- A pattern that is no glob names files, and a glob names entries. -/
theorem exists_entry_of_mem_expandPattern (proper : tree.isProper = true)
    (isDirectory : tree.isDirectory directory = true)
    (member : path ∈ expandPattern tree directory pattern) :
    ∃ location, tree.Leads directory path location ∧ (tree.isFile location = true ∨
        tree.isDirectory location = true ∧ PathFilter.isGlob pattern.toList = true) := by
  obtain ⟨isFound, _⟩ := List.mem_filter.1 member
  split at isFound
  · rename_i isGlob
    obtain ⟨found, isExpanded, rfl⟩ := List.mem_map.1 isFound
    have named := Glob.isNamed_expand proper isDirectory isExpanded
    refine ⟨found.location, named.leads, ?_⟩
    rcases hasEntry_iff.1 named.isEntry with isFile | isDirectory
    · exact Or.inl isFile
    · exact Or.inr ⟨isDirectory, isGlob⟩
  · obtain ⟨location, leads, isFile⟩ := exists_isFile_of_mem_walk proper isFound
    exact ⟨location, leads, Or.inl isFile⟩

theorem ne_empty_of_isSource (source : isSource path = true) : path ≠ "" := by
  rintro rfl
  exact absurd source (by decide)

/-- A path that is left out has the components of one that is kept. -/
theorem exists_mem_dropRepeats {paths : List String} (member : path ∈ paths) :
    ∃ kept ∈ dropRepeats paths, Path.components kept = Path.components path := by
  induction paths with
  | nil => cases member
  | cons first rest ih =>
    rw [dropRepeats]
    rcases List.mem_cons.1 member with rfl | isLater
    · refine ⟨path, ?_, rfl⟩
      split
      · exact List.mem_cons_self
      · split <;> exact List.mem_cons_self
    · obtain ⟨kept, isKept, same⟩ := ih isLater
      split
      · rename_i isRest
        rw [isRest] at isKept
        cases isKept
      · rename_i next others isRest
        rw [isRest] at isKept
        split
        · rename_i alike
          rcases List.mem_cons.1 isKept with rfl | isOther
          · exact ⟨first, List.mem_cons_self, (beq_iff_eq.1 alike).trans same⟩
          · exact ⟨kept, List.mem_cons_of_mem _ isOther, same⟩
        · exact ⟨kept, List.mem_cons_of_mem _ isKept, same⟩

theorem exists_pattern_of_mem_collect {patterns : List String}
    (member : path ∈ collect tree directory patterns) :
    ∃ pattern ∈ patterns, path ∈ expandPattern tree directory pattern :=
  List.mem_flatMap.1 (mem_sortBy.1 (mem_of_mem_dropRepeats member))

/--
Collected paths increase strictly, none that a pattern names is lost, and each is
the path of a source file that is not an installed package's.  Each names a file,
or a directory that a glob names.  Two of them name the same entry only if they
start differently or one of them goes up.
-/
theorem collected_paths_name_sources (tree : FileTree) (directory : Location)
    (patterns : List String) (proper : tree.isProper = true)
    (isDirectory : tree.isDirectory directory = true) :
    let paths := collect tree directory patterns
    (paths.Pairwise fun first second => Path.comesBefore first second = true) ∧
    (∀ pattern ∈ patterns, ∀ path ∈ expandPattern tree directory pattern,
      ∃ kept ∈ paths, Path.components kept = Path.components path) ∧
    (∀ path ∈ paths,
      (∃ extension ∈ sourceExtensions, Path.extension? path = some extension) ∧
      .name "node_modules" ∉ Path.components path ∧
      ∃ location, tree.locate directory path = .ok location ∧
        (tree.isFile location = true ∨
          tree.isDirectory location = true ∧ ∃ pattern ∈ patterns,
            PathFilter.isGlob pattern.toList = true ∧
              path ∈ expandPattern tree directory pattern)) ∧
    ∀ first ∈ paths, ∀ second ∈ paths, ∀ location,
      tree.locate directory first = .ok location →
      tree.locate directory second = .ok location →
        first = second ∨ Path.start? first ≠ Path.start? second ∨
          .parent ∈ Path.components first ∨ .parent ∈ Path.components second := by
  intro paths
  have increasing : paths.Pairwise fun first second => Path.comesBefore first second = true := by
    apply increasing_dropRepeats
    apply sortBy_pairwise
    · intro first second
      exact Path.notAfter_total
    · intro first second third
      exact Path.notAfter_trans
  refine ⟨increasing, ?_, ?_, ?_⟩
  · intro pattern isPattern path isNamed
    exact exists_mem_dropRepeats
      (mem_sortBy.2 (List.mem_flatMap.2 ⟨pattern, isPattern, isNamed⟩))
  · intro path member
    obtain ⟨pattern, isPattern, isNamed⟩ := exists_pattern_of_mem_collect member
    have source := (List.mem_filter.1 isNamed).2
    obtain ⟨location, leads, isEntry⟩ :=
      exists_entry_of_mem_expandPattern proper isDirectory isNamed
    obtain ⟨hasExtension, notInstalled⟩ := isSource_iff.1 source
    refine ⟨hasExtension, notInstalled, location, ?_, ?_⟩
    · refine locate_eq_ok_iff.2 ⟨ne_empty_of_isSource source, leads, hasEntry_iff.2 ?_⟩
      exact isEntry.imp_right And.left
    · exact isEntry.imp_right fun ⟨isDirectory, isGlob⟩ =>
        ⟨isDirectory, pattern, isPattern, isGlob, isNamed⟩
  · intro first isFirst second isSecond location firstLocated secondLocated
    obtain ⟨firstPath, firstLeads, _⟩ := locate_eq_ok_iff.1 firstLocated
    obtain ⟨secondPath, secondLeads, _⟩ := locate_eq_ok_iff.1 secondLocated
    by_cases startAlike : Path.start? first = Path.start? second
    · by_cases firstUp : .parent ∈ Path.components first
      · exact Or.inr (Or.inr (Or.inl firstUp))
      · by_cases secondUp : .parent ∈ Path.components second
        · exact Or.inr (Or.inr (Or.inr secondUp))
        · exact Or.inl (Path.eq_of_components_eq increasing isFirst isSecond
            (Path.components_eq_of_leads firstPath secondPath firstUp secondUp startAlike
              firstLeads secondLeads))
    · exact Or.inr (Or.inl startAlike)

/-- A directory with a source file and a directory that is named like one. -/
def mixedTree : FileTree where
  files := [(["work", "a.js"], .text ['a', ';'])]
  directories := [["work", "x.js"]]

theorem collected_paths_name_sources_mixed :
    mixedTree.isProper = true ∧ mixedTree.isDirectory ["work"] = true ∧
      ((collect mixedTree ["work"] [".", "*.js"]).Pairwise fun first second =>
        Path.comesBefore first second = true) ∧
      collect mixedTree ["work"] [".", "*.js"] = ["./a.js", "a.js", "x.js"] := by
  have proper : mixedTree.isProper = true := by decide +kernel
  have isDirectory : mixedTree.isDirectory ["work"] = true := by decide +kernel
  exact ⟨proper, isDirectory,
    (collected_paths_name_sources mixedTree ["work"] [".", "*.js"] proper isDirectory).1,
    by decide +kernel⟩

/-- One file is collected under two paths, and a directory is collected with it. -/
theorem mixed_patterns_collect_twice :
    mixedTree.isProper = true ∧ mixedTree.isDirectory ["work"] = true ∧
    collect mixedTree ["work"] [".", "*.js"] = ["./a.js", "a.js", "x.js"] ∧
    mixedTree.locate ["work"] "./a.js" = .ok ["work", "a.js"] ∧
    mixedTree.locate ["work"] "a.js" = .ok ["work", "a.js"] ∧
    mixedTree.locate ["work"] "x.js" = .ok ["work", "x.js"] ∧
    mixedTree.isFile ["work", "x.js"] = false := by
  refine ⟨by decide +kernel, by decide +kernel, by decide +kernel, ?_, ?_, ?_, by decide +kernel⟩
  all_goals rfl

end Files

end Codemod
