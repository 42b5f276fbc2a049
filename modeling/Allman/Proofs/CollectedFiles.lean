import Allman.Proofs.RewrittenTree

/-! The names that a target is given. A name put together from a directory and a
path below it leads back to the file it was made for, so the collected names stand
for files of the tree, no two of them for the same one. -/

namespace Allman

section Splitting
variable {separator : UInt8} {text : Bytes}

theorem splitAt_ne_nil (separator : UInt8) (text : Bytes) : splitAt separator text ≠ [] := by
  cases text with
  | nil => exact List.cons_ne_nil _ _
  | cons c rest =>
    unfold splitAt
    split
    next => exact List.cons_ne_nil _ _
    next => split <;> exact List.cons_ne_nil _ _

theorem splitAt_cons {c : UInt8} {rest piece : Bytes} {pieces : List Bytes}
    (split : splitAt separator rest = piece :: pieces) : splitAt separator (c :: rest) =
      if c = separator then [] :: piece :: pieces else (c :: piece) :: pieces := by
  rw [splitAt, split]

theorem splitAt_of_not_mem (absent : separator ∉ text) : splitAt separator text = [text] := by
  induction text with
  | nil => rfl
  | cons c rest ih =>
    obtain ⟨first, later⟩ := not_or.mp (fun found => absent (List.mem_cons.mpr found))
    rw [splitAt_cons (ih later), if_neg (Ne.symm first)]

theorem splitAt_append_cons (separator : UInt8) (front rest : Bytes) :
    splitAt separator (front ++ separator :: rest) = splitAt separator front ++ splitAt separator rest := by
  induction front with
  | nil =>
    obtain ⟨piece, pieces, split⟩ := List.exists_cons_of_ne_nil (splitAt_ne_nil separator rest)
    rw [List.nil_append, splitAt_cons split, if_pos rfl, split]
    rfl
  | cons c front ih =>
    obtain ⟨piece, pieces, split⟩ := List.exists_cons_of_ne_nil (splitAt_ne_nil separator front)
    rw [split] at ih
    rw [List.cons_append, splitAt_cons ih, splitAt_cons split]
    split <;> rfl

end Splitting

namespace Path
variable {name directory : Bytes} {path : Path}

private theorem written_append (clean : (0 : UInt8) ∉ name) (rest : Bytes) :
    written (name ++ rest) = name ++ written rest := by
  apply List.takeWhile_append_of_pos
  intro c member
  have : c ≠ 0 := fun zero => clean (zero ▸ member)
  simpa using this

private theorem written_eq_self (clean : (0 : UInt8) ∉ name) : written name = name := by
  simpa [written] using written_append clean []

private theorem written_slash (rest : Bytes) : written (Byte.slash :: rest) = Byte.slash :: written rest :=
  List.takeWhile_cons_of_pos (by decide)

private theorem parse_append (clean : (0 : UInt8) ∉ directory) (rest : Bytes) :
    parse (directory ++ Byte.slash :: rest) = parse directory ++ parse rest := by
  rw [parse, written_append clean, written_slash, splitAt_append_cons, List.filterMap_append, parse, parse,
    written_eq_self clean]

private theorem namesDirectory_append (clean : (0 : UInt8) ∉ directory) (rest : Bytes) :
    namesDirectory (directory ++ Byte.slash :: rest) = namesDirectory rest := by
  rw [namesDirectory, written_append clean, written_slash, splitAt_append_cons,
    List.getLast?_append_of_ne_nil _ (splitAt_ne_nil _ _), namesDirectory]

private theorem ofBytes?_bytes (entry : EntryName) : EntryName.ofBytes? entry.bytes = some entry :=
  dif_pos ⟨entry.nonempty, entry.proper, entry.unbroken⟩

theorem join_cons (entry : EntryName) (nonempty : path ≠ []) :
    join (entry :: path) = entry.bytes ++ Byte.slash :: join path := by
  cases path with
  | nil => exact absurd rfl nonempty
  | cons => rfl

private theorem splitAt_join (nonempty : path ≠ []) :
    splitAt Byte.slash (join path) = path.map EntryName.bytes := by
  induction path with
  | nil => exact absurd rfl nonempty
  | cons entry path ih =>
    by_cases last : path = []
    · rw [last]
      exact splitAt_of_not_mem entry.unbroken.1
    · rw [join_cons entry last, splitAt_append_cons, splitAt_of_not_mem entry.unbroken.1, ih last]
      rfl

private theorem zero_not_mem_join (path : Path) : (0 : UInt8) ∉ join path := by
  induction path with
  | nil => exact List.not_mem_nil
  | cons entry path ih =>
    by_cases last : path = []
    · rw [last]
      exact entry.unbroken.2
    · rw [join_cons entry last]
      simp [entry.unbroken.2, ih, Byte.slash]

theorem parse_join (nonempty : path ≠ []) : parse (join path) = path := by
  rw [parse, written_eq_self (zero_not_mem_join path), splitAt_join nonempty, List.filterMap_map]
  have each : EntryName.ofBytes? ∘ EntryName.bytes = some := funext ofBytes?_bytes
  rw [each, List.filterMap_some]

private theorem namesDirectory_join (nonempty : path ≠ []) : namesDirectory (join path) = false := by
  rw [namesDirectory, written_eq_self (zero_not_mem_join path), splitAt_join nonempty, List.getLast?_map,
    List.getLast?_eq_some_getLast nonempty]
  simp [(path.getLast nonempty).nonempty, (path.getLast nonempty).proper]

/-- A name below a directory is that of the directory, a slash and the path from there. -/
theorem nameBelow_eq (directory : Bytes) (path : Path) :
    nameBelow directory path = directory ++ Byte.slash :: join path ∨
      ∃ front, directory = front ++ [Byte.slash] ∧ nameBelow directory path = front ++ Byte.slash :: join path := by
  rw [nameBelow]
  by_cases ended : directory.getLast? = some Byte.slash
  · obtain ⟨front, rfl⟩ := List.getLast?_eq_some_iff.mp ended
    exact .inr ⟨front, rfl, by simp⟩
  · exact .inl (by simp [ended])

theorem parse_nameBelow (clean : (0 : UInt8) ∉ directory) (nonempty : path ≠ []) :
    parse (nameBelow directory path) = parse directory ++ path := by
  obtain same | ⟨front, rfl, same⟩ := nameBelow_eq directory path
  · rw [same, parse_append clean, parse_join nonempty]
  · have front : (0 : UInt8) ∉ front := fun member => clean (List.mem_append_left _ member)
    rw [same, parse_append front, parse_append front, parse_join nonempty]
    simp [parse, written, splitAt, EntryName.ofBytes?]

theorem namesDirectory_nameBelow (clean : (0 : UInt8) ∉ directory) (nonempty : path ≠ []) :
    namesDirectory (nameBelow directory path) = false := by
  obtain same | ⟨front, rfl, same⟩ := nameBelow_eq directory path
  · rw [same, namesDirectory_append clean, namesDirectory_join nonempty]
  · have front : (0 : UInt8) ∉ front := fun member => clean (List.mem_append_left _ member)
    rw [same, namesDirectory_append front, namesDirectory_join nonempty]

end Path

section Collecting
variable {tree : FileTree} {target : Bytes} {names : List Bytes} {path rest : Path}

/-- What is left of a path behind the directory it lies below. -/
theorem FileTree.below_eq_some {file : Path × Bytes}
    (found : (if path.isPrefixOf file.1 && path ≠ file.1 then some (file.1.drop path.length) else none) = some rest) :
    path ++ rest = file.1 ∧ rest ≠ [] := by
  obtain ⟨inside, same⟩ := Option.ite_none_right_eq_some.mp found
  rw [Bool.and_eq_true, decide_eq_true_iff, List.isPrefixOf_iff_prefix] at inside
  obtain ⟨⟨left, whole⟩, proper⟩ := inside
  rw [← whole, List.drop_left] at same
  cases same
  refine ⟨whole, fun ended => proper ?_⟩
  rw [← whole, ended, List.append_nil]

/-- Counted from the root, the paths below a directory are some of the paths of the tree. -/
theorem FileTree.map_below_sublist (tree : FileTree) (path : Path) :
    ((tree.below path).map (path ++ ·)).Sublist (tree.files.map Prod.fst) := by
  unfold FileTree.below
  induction tree.files with
  | nil => exact .slnil
  | cons file files ih =>
    rw [List.filterMap_cons]
    split
    next => exact ih.cons _
    next rest found =>
      rw [List.map_cons, List.map_cons, (below_eq_some found).1]
      exact ih.cons_cons _

theorem FileTree.ne_nil_of_mem_below (member : rest ∈ tree.below path) : rest ≠ [] := by
  obtain ⟨file, -, found⟩ := List.mem_filterMap.mp member
  exact (below_eq_some found).2

theorem FileTree.find_nameBelow (clean : (0 : UInt8) ∉ target) (member : rest ∈ tree.below (Path.parse target)) :
    ∃ path content, tree.find (nameBelow target rest) = .file path content := by
  have nonempty := ne_nil_of_mem_below member
  have listed : Path.parse target ++ rest ∈ tree.files.map Prod.fst :=
    (tree.map_below_sublist _).subset (List.mem_map_of_mem member)
  obtain ⟨content, held⟩ := Option.ne_none_iff_exists'.mp fun absent => content?_eq_none_iff.mp absent listed
  refine ⟨_, content, find_eq_file_iff.mpr ⟨Path.namesDirectory_nameBelow clean nonempty, rfl, ?_⟩⟩
  rw [Path.parse_nameBelow clean nonempty, held]

private theorem FileTree.nodup_parse_nameBelow (tree : FileTree) (clean : (0 : UInt8) ∉ target) :
    (((tree.below (Path.parse target)).map (nameBelow target)).map Path.parse).Nodup := by
  have paths : ((tree.below (Path.parse target)).map (nameBelow target)).map Path.parse =
      (tree.below (Path.parse target)).map (Path.parse target ++ ·) := by
    rw [List.map_map]
    apply List.map_congr_left
    intro rest member
    exact Path.parse_nameBelow clean (ne_nil_of_mem_below member)
  rw [paths]
  exact (tree.map_below_sublist _).nodup tree.distinct

theorem FileTree.parse_eq_of_find_directory (found : tree.find target = .directory path) :
    path = Path.parse target := by
  unfold FileTree.find at found
  split at found
  next => cases found
  next =>
    split at found
    next => split at found <;> cases found
    next =>
      split at found
      next =>
        cases found
        rfl
      next => cases found

/-- A target that stands for files is a C file, or a directory with C files below it. -/
theorem collect_cases (collected : collect tree target = .ok names) :
    (isCFile target = true ∧ names = [target] ∧ ∃ path content, tree.find target = .file path content) ∨
      names.Perm (((tree.below (Path.parse target)).map (nameBelow target)).filter isCFile) := by
  unfold collect at collected
  split at collected
  next path content found =>
    split at collected
    next isC =>
      cases collected
      exact .inl ⟨isC, rfl, path, content, found⟩
    next => cases collected
  next => cases collected
  next path found =>
    obtain rfl := FileTree.parse_eq_of_find_directory found
    split at collected
    next => cases collected
    next =>
      cases collected
      exact .inr (List.mergeSort_perm _ _)

/-- The names are those of C files of the tree, no two of the same file. -/
structure FileTree.Lists (tree : FileTree) (names : List Bytes) : Prop where
  isC : ∀ name ∈ names, isCFile name = true
  named : ∀ name ∈ names, ∃ path content, tree.find name = .file path content
  apart : (names.map Path.parse).Nodup

theorem collect_lists (clean : (0 : UInt8) ∉ target) (collected : collect tree target = .ok names) :
    tree.Lists names := by
  obtain ⟨isC, rfl, found⟩ | order := collect_cases collected
  · exact ⟨by simpa using isC, by simpa using found, List.nodup_singleton _⟩
  · constructor
    · intro name member
      exact (List.mem_filter.mp (order.mem_iff.mp member)).2
    · intro name member
      obtain ⟨rest, below, rfl⟩ := List.mem_map.mp (List.mem_filter.mp (order.mem_iff.mp member)).1
      exact FileTree.find_nameBelow clean below
    · rw [(order.map Path.parse).nodup_iff]
      exact (List.filter_sublist.map _).nodup (tree.nodup_parse_nameBelow clean)

end Collecting
end Allman
