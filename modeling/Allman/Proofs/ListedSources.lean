import Allman.Proofs.CollectedFiles

/-! What a target stands for. The names collected for a directory are those of the C
files below it and no others: the suffix test looks at a whole name, but what it finds is
in the last entry of the path, and a name leads back to its path. They are sorted, so
that the order in which a tree lists its files makes no difference. -/

namespace Allman

/-- A C file lies below a directory, and the names lead to it from there: the last of
them ends in `.c` or in `.h`. -/
structure FileTree.CFileBelow (tree : FileTree) (directory names : Path) (content : Bytes) : Prop where
  held : (directory ++ names, content) ∈ tree.files
  isC : ∃ entry, names.getLast? = some entry ∧ (ascii ".c" <:+ entry.bytes ∨ ascii ".h" <:+ entry.bytes)

section Suffixes
variable {directory : Bytes} {names : Path} {entry : EntryName}

private theorem isCFile_iff {name : Bytes} : isCFile name = true ↔ ascii ".c" <:+ name ∨ ascii ".h" <:+ name := by
  rw [isCFile, Bool.or_eq_true, List.isSuffixOf_iff_suffix, List.isSuffixOf_iff_suffix]

private theorem suffix_append_cons_iff {separator : UInt8} {ending : Bytes}
    (absent : separator ∉ ending) (front back : Bytes) :
    ending <:+ front ++ separator :: back ↔ ending <:+ back := by
  have within : separator :: back <:+ front ++ separator :: back := List.suffix_append _ _
  constructor
  · intro ends
    rcases List.suffix_or_suffix_of_suffix ends within with inside | outside
    · rcases List.suffix_cons_iff.mp inside with rfl | behind
      · exact absurd List.mem_cons_self absent
      · exact behind
    · exact absurd (outside.subset List.mem_cons_self) absent
  · intro ends
    exact (ends.trans (List.suffix_cons _ _)).trans within

private theorem isCFile_behind_slash (front back : Bytes) :
    isCFile (front ++ Byte.slash :: back) = isCFile back := by
  have source : Byte.slash ∉ ascii ".c" := by decide
  have header : Byte.slash ∉ ascii ".h" := by decide
  rw [Bool.eq_iff_iff]
  simp only [isCFile_iff, suffix_append_cons_iff source, suffix_append_cons_iff header]

private theorem Path.isCFile_join (folder : Path) (entry : EntryName) :
    isCFile (join (folder ++ [entry])) = isCFile entry.bytes := by
  induction folder with
  | nil => rfl
  | cons first folder ih => rw [List.cons_append, join_cons _ (by simp), isCFile_behind_slash, ih]

/-- Whether a file is a C file is seen from its own name, wherever it lies. -/
theorem isCFile_nameBelow (last : names.getLast? = some entry) (directory : Bytes) :
    isCFile (nameBelow directory names) = isCFile entry.bytes := by
  obtain ⟨folder, rfl⟩ := List.getLast?_eq_some_iff.mp last
  obtain same | ⟨front, -, same⟩ := Path.nameBelow_eq directory (folder ++ [entry])
  · rw [same, isCFile_behind_slash, Path.isCFile_join]
  · rw [same, isCFile_behind_slash, Path.isCFile_join]

private theorem nameBelow_injective {first second : Path} (nonempty : first ≠ []) (nonempty' : second ≠ [])
    (same : nameBelow directory first = nameBelow directory second) : first = second := by
  have joined : first.join = second.join := List.append_cancel_left same
  rw [← Path.parse_join nonempty, joined, Path.parse_join nonempty']

end Suffixes

section Sorting
variable {first second : List Bytes}

abbrev inOrder (names : List Bytes) : List Bytes := names.mergeSort fun a b => !decide (b < a)

private theorem pairwise_inOrder (names : List Bytes) : (inOrder names).Pairwise (· ≤ ·) := by
  have sorted := @List.pairwise_mergeSort Bytes (fun a b => !decide (b < a)) ?_ ?_ names
  · simpa using sorted
  · intro a b c
    simpa using List.le_trans
  · intro a b
    simpa using List.le_total a b

private theorem inOrder_eq_of_perm (same : first.Perm second) : inOrder first = inOrder second := by
  refine List.Perm.eq_of_pairwise ?_ (pairwise_inOrder first) (pairwise_inOrder second) ?_
  · exact fun _ _ _ _ => List.le_antisymm
  · exact (List.mergeSort_perm _ _).trans (same.trans (List.mergeSort_perm _ _).symm)

private theorem pairwise_lt_inOrder (distinct : first.Nodup) : (inOrder first).Pairwise (· < ·) := by
  have apart : (inOrder first).Nodup := (List.mergeSort_perm _ _).nodup_iff.mpr distinct
  exact (pairwise_inOrder first).imp₂ (fun _ _ => Std.lt_of_le_of_ne) apart

end Sorting

section Directory
variable {tree : FileTree} {target : Bytes} {directory names : Path} {content : Bytes}

private theorem FileTree.mem_below_iff :
    names ∈ tree.below directory ↔ names ≠ [] ∧ ∃ content, (directory ++ names, content) ∈ tree.files := by
  rw [FileTree.below, List.mem_filterMap]
  constructor
  · rintro ⟨⟨path, content⟩, member, found⟩
    obtain ⟨rfl, nonempty⟩ := below_eq_some found
    exact ⟨nonempty, content, member⟩
  · rintro ⟨nonempty, content, member⟩
    refine ⟨_, member, ?_⟩
    have proper : directory ≠ directory ++ names := by simpa using nonempty
    simp [proper]

def cNamesBelow (tree : FileTree) (directory : Path) (target : Bytes) : List Bytes :=
  ((tree.below directory).map (nameBelow target)).filter isCFile

private theorem mem_cNamesBelow {name : Bytes} : name ∈ cNamesBelow tree directory target ↔
    ∃ names content, tree.CFileBelow directory names content ∧ name = nameBelow target names := by
  rw [cNamesBelow, List.mem_filter, List.mem_map]
  constructor
  · rintro ⟨⟨names, below, rfl⟩, isC⟩
    obtain ⟨nonempty, content, held⟩ := FileTree.mem_below_iff.mp below
    have last := List.getLast?_eq_some_getLast nonempty
    rw [isCFile_nameBelow last, isCFile_iff] at isC
    exact ⟨names, content, ⟨held, _, last, isC⟩, rfl⟩
  · rintro ⟨names, content, ⟨held, entry, last, isC⟩, rfl⟩
    have nonempty : names ≠ [] := by
      rintro rfl
      cases last
    rw [isCFile_nameBelow last, isCFile_iff]
    exact ⟨⟨names, FileTree.mem_below_iff.mpr ⟨nonempty, content, held⟩, rfl⟩, isC⟩

private theorem nodup_cNamesBelow (tree : FileTree) (directory : Path) (target : Bytes) :
    (cNamesBelow tree directory target).Nodup := by
  have paths : (tree.below directory).Nodup := ((tree.map_below_sublist directory).nodup tree.distinct).of_map
  apply List.Nodup.filter
  apply paths.map_on
  intro first below second below'
  exact nameBelow_injective (FileTree.ne_nil_of_mem_below below) (FileTree.ne_nil_of_mem_below below')

private theorem collect_of_directory (found : tree.find target = .directory directory) : collect tree target =
    if cNamesBelow tree directory target = [] then .error (.noneBelow target)
    else .ok (inOrder (cNamesBelow tree directory target)) := by
  rw [collect, found]
  dsimp only
  split
  next none => exact (if_pos none).symm
  next some => exact (if_neg some).symm

private theorem collect_eq_ok_iff (found : tree.find target = .directory directory) {sources : List Bytes} :
    collect tree target = .ok sources ↔
      cNamesBelow tree directory target ≠ [] ∧ sources = inOrder (cNamesBelow tree directory target) := by
  rw [collect_of_directory found]
  split
  next none => simp [none]
  next some => simp [some, eq_comm]

/-- A name leads to the file that it was put together for. -/
theorem FileTree.CFileBelow.find_nameBelow (below : tree.CFileBelow directory names content)
    (found : tree.find target = .directory directory) (clean : (0 : UInt8) ∉ target) :
    tree.find (nameBelow target names) = .file (directory ++ names) content := by
  obtain ⟨entry, last, -⟩ := below.isC
  have nonempty : names ≠ [] := by
    rintro rfl
    cases last
  obtain rfl := parse_eq_of_find_directory found
  have path := Path.parse_nameBelow clean nonempty
  refine find_eq_file_iff.mpr ⟨Path.namesDirectory_nameBelow clean nonempty, path.symm, ?_⟩
  rw [path]
  exact content?_of_mem below.held

end Directory

section Visits
variable {tree other : FileTree} (files : other.files.Perm tree.files)
include files

private theorem FileTree.content?_of_perm (path : Path) : other.content? path = tree.content? path := by
  cases found : tree.content? path with
  | none =>
    rw [content?_eq_none_iff] at found ⊢
    exact mt (files.map Prod.fst).mem_iff.mp found
  | some content => exact content?_of_mem (files.mem_iff.mpr (mem_files_of_content? found))

private theorem FileTree.find_of_perm (directories : other.directories.Perm tree.directories) (name : Bytes) :
    other.find name = tree.find name := by
  have same (path : Path) : other.isDirectory path = tree.isDirectory path := by
    rw [isDirectory, content?_of_perm files, files.any_eq, directories.any_eq]
    rfl
  rw [find, content?_of_perm files, same]
  rfl

private theorem cNamesBelow_of_perm (directory : Path) (target : Bytes) :
    (cNamesBelow other directory target).Perm (cNamesBelow tree directory target) :=
  ((files.filterMap _).map _).filter _

/-- A tree that lists its files in another order gives every target the same files. -/
theorem collect_of_perm (directories : other.directories.Perm tree.directories) (target : Bytes) :
    collect other target = collect tree target := by
  have same := FileTree.find_of_perm files directories target
  cases found : tree.find target with
  | file | missing =>
    rw [found] at same
    rw [collect, collect, found, same]
  | directory directory =>
    rw [found] at same
    have listed := cNamesBelow_of_perm files directory target
    have none : cNamesBelow other directory target = [] ↔ cNamesBelow tree directory target = [] := by
      rw [← List.length_eq_zero_iff, listed.length_eq, List.length_eq_zero_iff]
    rw [collect_of_directory found, collect_of_directory same, inOrder_eq_of_perm listed]
    simp only [none]

end Visits

/-- What a target stands for. A file stands for itself if it is a C file, one whose name
ends in `.c` or in `.h`, and a path that names nothing for no files. A directory stands
for the C files below it, at any depth, provided there are any: their names are listed in
byte order, each once, and each leads to the file it was put together for, as long as no
zero byte cuts the target short. The order in which the tree lists its files makes no
difference. -/
theorem collect_exact (tree : FileTree) (target : Bytes) :
    (∀ path content, tree.find target = .file path content →
      collect tree target =
        if ascii ".c" <:+ target ∨ ascii ".h" <:+ target then .ok [target] else .error (.notC target)) ∧
    (tree.find target = .missing → collect tree target = .error (.missing target)) ∧
    (∀ directory, tree.find target = .directory directory →
      ((∃ sources, collect tree target = .ok sources) ↔
        ∃ names content, tree.CFileBelow directory names content) ∧
      (∀ sources, collect tree target = .ok sources →
        sources.Pairwise (· < ·) ∧ sources.Nodup ∧
        ∀ name, name ∈ sources ↔
          ∃ names content, tree.CFileBelow directory names content ∧ name = nameBelow target names) ∧
      ((0 : UInt8) ∉ target → ∀ names content, tree.CFileBelow directory names content →
        tree.find (nameBelow target names) = .file (directory ++ names) content)) ∧
    (∀ other : FileTree, other.files.Perm tree.files → other.directories.Perm tree.directories →
      collect other target = collect tree target) := by
  refine ⟨?_, ?_, ?_, ?_⟩
  · intro path content found
    rw [collect, found]
    simp only [isCFile_iff]
  · intro found
    rw [collect, found]
  · intro directory found
    refine ⟨?_, ?_, ?_⟩
    · simp only [collect_eq_ok_iff found, exists_and_left, exists_eq, and_true]
      constructor
      · intro some
        obtain ⟨name, listed⟩ := List.exists_mem_of_ne_nil _ some
        obtain ⟨names, content, below, -⟩ := mem_cNamesBelow.mp listed
        exact ⟨names, content, below⟩
      · rintro ⟨names, content, below⟩
        exact List.ne_nil_of_mem (mem_cNamesBelow.mpr ⟨names, content, below, rfl⟩)
    · intro sources collected
      obtain ⟨-, rfl⟩ := (collect_eq_ok_iff found).mp collected
      have distinct := nodup_cNamesBelow tree directory target
      refine ⟨pairwise_lt_inOrder distinct, (List.mergeSort_perm _ _).nodup_iff.mpr distinct, ?_⟩
      intro name
      rw [List.mem_mergeSort, mem_cNamesBelow]
    · intro clean names content below
      exact below.find_nameBelow found clean
  · intro other files directories
    exact collect_of_perm files directories target

/-- A header, a source a directory further down, and a file of notes. -/
theorem collect_exact_depths :
    let tree := ((FileTree.empty.put (Path.parse (ascii "d/e/a.c")) (ascii "int *p;")).put
      (Path.parse (ascii "d/notes")) (ascii "c.h")).put (Path.parse (ascii "d/b.h")) []
    tree.find (ascii "d/") = .directory (Path.parse (ascii "d")) ∧
      collect tree (ascii "d/") = .ok [ascii "d/b.h", ascii "d/e/a.c"] ∧
      (∀ names content, tree.CFileBelow (Path.parse (ascii "d")) names content →
        nameBelow (ascii "d/") names = ascii "d/b.h" ∨ nameBelow (ascii "d/") names = ascii "d/e/a.c") ∧
      (∃ names content, ascii "d/e/a.c" = nameBelow (ascii "d/") names ∧
        tree.find (ascii "d/e/a.c") = .file (Path.parse (ascii "d") ++ names) content) ∧
      collect tree (ascii "d/b.h") = .ok [ascii "d/b.h"] ∧
      collect tree (ascii "d/notes") = .error (.notC (ascii "d/notes")) ∧
      collect tree (ascii "e") = .error (.missing (ascii "e")) := by
  intro tree
  have found : tree.find (ascii "d/") = .directory (Path.parse (ascii "d")) := by rfl
  have listing : cNamesBelow tree (Path.parse (ascii "d")) (ascii "d/") = [ascii "d/e/a.c", ascii "d/b.h"] := by
    decide +kernel
  have sorted : inOrder [ascii "d/e/a.c", ascii "d/b.h"] = [ascii "d/b.h", ascii "d/e/a.c"] := by
    rw [inOrder_eq_of_perm (List.Perm.swap _ _ _)]
    exact List.mergeSort_of_pairwise (by decide)
  have collected : collect tree (ascii "d/") = .ok [ascii "d/b.h", ascii "d/e/a.c"] := by
    rw [collect_of_directory found, listing, if_neg (List.cons_ne_nil _ _), sorted]
  obtain ⟨-, -, below, -⟩ := collect_exact tree (ascii "d/")
  obtain ⟨-, sources, leads⟩ := below _ found
  obtain ⟨-, -, members⟩ := sources _ collected
  refine ⟨found, collected, ?_, ?_, ?_, ?_, ?_⟩
  · intro names content below
    simpa using (members _).mpr ⟨names, content, below, rfl⟩
  · obtain ⟨names, content, below, name⟩ := (members (ascii "d/e/a.c")).mp (by simp)
    exact ⟨names, content, name, name ▸ leads (by decide) names content below⟩
  · exact ((collect_exact tree _).1 _ _ rfl).trans (if_pos (by decide))
  · exact ((collect_exact tree _).1 _ _ rfl).trans (if_neg (by decide))
  · exact (collect_exact tree _).2.1 rfl

end Allman
