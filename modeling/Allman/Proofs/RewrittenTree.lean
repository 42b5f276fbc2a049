import Mathlib.Data.List.Nodup
import Allman.SourceFiles

/-! File trees whose files have the same paths. Writing to files that are there
already changes what they hold and nothing else, so such a tree lists the same
files, has the same directories, and gives every target the same C files. -/

namespace Allman
namespace FileTree

variable {tree : FileTree} {path : Path} {content : Bytes}

def rewrite (tree : FileTree) (change : Path → Bytes → Bytes) : FileTree :=
  { tree with
    files := tree.files.map fun file => (file.1, change file.1 file.2)
    distinct := by simpa [Function.comp_def] using tree.distinct }

def textOf (tree : FileTree) (name : Bytes) : Bytes := (tree.content? (Path.parse name)).getD []

private theorem eq_of_files {tree other : FileTree} (files : tree.files = other.files)
    (directories : tree.directories = other.directories) : tree = other := by
  cases tree
  cases other
  cases files
  cases directories
  rfl

section Contents

theorem lookup_map_snd {α β γ : Type} [BEq α] [LawfulBEq α] {entries : List (α × β)} {change : α → β → γ} {key : α} :
    (entries.map fun entry => (entry.1, change entry.1 entry.2)).lookup key = (entries.lookup key).map (change key) := by
  induction entries with
  | nil => rfl
  | cons entry entries ih =>
    obtain ⟨other, content⟩ := entry
    simp only [List.map_cons, List.lookup_cons]
    cases found : key == other with
    | true => simp [eq_of_beq found]
    | false => exact ih

private theorem lookup_eq_none_iff {files : List (Path × Bytes)} :
    files.lookup path = none ↔ path ∉ files.map Prod.fst := by
  rw [List.lookup_eq_none_iff]
  simp only [List.mem_map, not_exists, not_and, bne_iff_ne, ne_eq]
  exact ⟨fun absent file member same => absent file member same.symm,
    fun absent file member same => absent file member same.symm⟩

theorem content?_eq_none_iff : tree.content? path = none ↔ path ∉ tree.files.map Prod.fst :=
  lookup_eq_none_iff

theorem mem_files_of_content? (found : tree.content? path = some content) : (path, content) ∈ tree.files := by
  obtain ⟨before, after, split, -⟩ := List.lookup_eq_some_iff.mp found
  rw [split]
  simp

/-- A tree holds one content for a path. -/
theorem content?_of_mem (member : (path, content) ∈ tree.files) : tree.content? path = some content := by
  cases found : tree.content? path with
  | none => exact absurd (List.mem_map_of_mem member) (content?_eq_none_iff.mp found)
  | some other =>
    have same := List.inj_on_of_nodup_map tree.distinct (mem_files_of_content? found) member rfl
    cases same
    rfl

theorem content?_rewrite (change : Path → Bytes → Bytes) :
    (tree.rewrite change).content? path = (tree.content? path).map (change path) :=
  lookup_map_snd

theorem textOf_rewrite {change : Path → Bytes → Bytes} {name : Bytes}
    (found : tree.content? (Path.parse name) = some content) :
    (tree.rewrite change).textOf name = change (Path.parse name) content := by
  rw [textOf, content?_rewrite, found]
  rfl

end Contents

section Rewriting
variable {change other : Path → Bytes → Bytes}

theorem rewrite_congr
    (agree : ∀ path content, tree.content? path = some content → change path content = other path content) :
    tree.rewrite change = tree.rewrite other := by
  apply eq_of_files
  · apply List.map_congr_left
    intro file member
    rw [agree file.1 file.2 (content?_of_mem member)]
  · rfl

theorem rewrite_eq_self (keeps : ∀ path content, tree.content? path = some content → change path content = content) :
    tree.rewrite change = tree := by
  rw [rewrite_congr keeps]
  exact eq_of_files (List.map_id _) rfl

theorem rewrite_rewrite : (tree.rewrite change).rewrite other =
    tree.rewrite fun path content => other path (change path content) :=
  eq_of_files (List.map_map ..) rfl

/-- Writing a file that is there rewrites it. -/
theorem put_eq_rewrite (found : tree.content? path = some content) (new : Bytes) :
    tree.put path new = tree.rewrite fun at' old => if at' = path then new else old := by
  have present : path ∈ tree.files.map Prod.fst := List.mem_map_of_mem (mem_files_of_content? found)
  rw [put, dif_pos present]
  rfl

theorem content?_put (found : tree.content? path = some content) (new : Bytes) :
    (tree.put path new).content? path = some new := by
  rw [put_eq_rewrite found, content?_rewrite, found]
  simp

theorem content?_put_other (found : tree.content? path = some content) (new : Bytes) {other : Path}
    (apart : other ≠ path) : (tree.put path new).content? other = tree.content? other := by
  rw [put_eq_rewrite found, content?_rewrite]
  simp [apart]

theorem put_put (found : tree.content? path = some content) (first second : Bytes) :
    (tree.put path first).put path second = tree.put path second := by
  rw [put_eq_rewrite (content?_put found first), put_eq_rewrite found, put_eq_rewrite found, rewrite_rewrite]
  apply rewrite_congr
  intro other old _
  split <;> rfl

/-- Writing what a file holds changes nothing. -/
theorem put_self (found : tree.content? path = some content) : tree.put path content = tree := by
  rw [put_eq_rewrite found]
  apply rewrite_eq_self
  intro other old held
  split
  next same =>
    rw [same, found] at held
    exact Option.some.inj held
  next => rfl

end Rewriting

section Finding
variable {name : Bytes} {change : Path → Bytes → Bytes}

private theorem written_ne_nil (plain : Path.namesDirectory name = false) :
    (Path.written name).isEmpty = false := by
  cases ended : Path.written name with
  | nil => simp [Path.namesDirectory, ended, splitAt] at plain
  | cons _ _ => rfl

theorem find_eq_file_iff : tree.find name = .file path content ↔
    Path.namesDirectory name = false ∧ path = Path.parse name ∧ tree.content? (Path.parse name) = some content := by
  constructor
  · intro found
    unfold find at found
    split at found
    next => cases found
    next =>
      split at found
      next old held =>
        split at found
        next => cases found
        next plain =>
          cases found
          exact ⟨Bool.eq_false_iff.mpr plain, rfl, held⟩
      next =>
        split at found
        next => cases found
        next => cases found
  · rintro ⟨plain, rfl, held⟩
    rw [find, written_ne_nil plain]
    simp only [Bool.false_eq_true, if_false, held, plain]

private theorem isDirectory_rewrite : (tree.rewrite change).isDirectory path = tree.isDirectory path := by
  rw [isDirectory, content?_rewrite, isDirectory]
  simp [rewrite, Function.comp_def]

private theorem below_rewrite : (tree.rewrite change).below path = tree.below path := by
  simp [below, rewrite, List.filterMap_map]

/-- A name stands for the same entry of a tree that has been rewritten. -/
theorem find_rewrite : (tree.rewrite change).find name =
    match tree.find name with
    | .file path content => .file path (change path content)
    | .directory path => .directory path
    | .missing => .missing := by
  simp only [find, content?_rewrite, isDirectory_rewrite]
  by_cases ended : (Path.written name).isEmpty = true
  · simp only [if_pos ended]
  · simp only [if_neg ended]
    cases tree.content? (Path.parse name) with
    | some content => simp only [Option.map_some]; split <;> rfl
    | none => simp only [Option.map_none]; split <;> rfl

end Finding
end FileTree

/-- A target stands for the same C files of a tree that has been rewritten. -/
theorem collect_rewrite (tree : FileTree) (change : Path → Bytes → Bytes) (target : Bytes) :
    collect (tree.rewrite change) target = collect tree target := by
  simp only [collect, FileTree.find_rewrite]
  cases tree.find target with
  | file => rfl
  | missing => rfl
  | directory path => simp only [FileTree.below_rewrite]

end Allman
