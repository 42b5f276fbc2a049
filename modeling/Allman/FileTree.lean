import Allman.Bytes

/-! A tree of files in memory. Directories need no entry of their own: one exists
as soon as something lies below it. No two files share a path, whatever is
written. -/

namespace Allman

/-- A name that a directory can list: not empty, not the directory itself, and
without the bytes that end a name. The tree keeps no link from a directory to the one
that holds it, so two dots are a name like any other. -/
structure EntryName where
  bytes : Bytes
  nonempty : bytes ≠ []
  proper : bytes ≠ [Byte.dot]
  unbroken : Byte.slash ∉ bytes ∧ (0 : UInt8) ∉ bytes
deriving DecidableEq

def EntryName.ofBytes? (bytes : Bytes) : Option EntryName :=
  if valid : bytes ≠ [] ∧ bytes ≠ [Byte.dot] ∧ Byte.slash ∉ bytes ∧ (0 : UInt8) ∉ bytes then
    some ⟨bytes, valid.1, valid.2.1, valid.2.2⟩
  else none

/-- The names to follow from the root of the tree. -/
abbrev Path := List EntryName

namespace Path

/-- What a written path says; a zero byte ends it. -/
def written (name : Bytes) : Bytes := name.takeWhile (· ≠ 0)

/-- The path that is written with slashes. Empty names and single dots say nothing; two
dots are read as an entry of that name and lead nowhere else. -/
def parse (name : Bytes) : Path :=
  (splitAt Byte.slash (written name)).filterMap EntryName.ofBytes?

/-- A written path that ends with a slash, or with a dot for a name, can only name a directory. -/
def namesDirectory (name : Bytes) : Bool :=
  match (splitAt Byte.slash (written name)).getLast? with
  | some last => last == [] || last == [Byte.dot]
  | none => true

/-- The names with a slash between any two of them. -/
def join : Path → Bytes
  | [] => []
  | [name] => name.bytes
  | name :: rest => name.bytes ++ Byte.slash :: join rest

end Path

structure FileTree where
  files : List (Path × Bytes)
  directories : List Path
  distinct : (files.map Prod.fst).Nodup

/-- What a written path names. -/
inductive Entry where
  | file (path : Path) (content : Bytes)
  | directory (path : Path)
  | missing

namespace FileTree

def empty : FileTree := ⟨[], [], List.nodup_nil⟩

def content? (tree : FileTree) (path : Path) : Option Bytes := tree.files.lookup path

theorem distinct_put {files : List (Path × Bytes)} (distinct : (files.map Prod.fst).Nodup)
    (path : Path) (content : Bytes) (absent : path ∉ files.map Prod.fst) :
    ((files ++ [(path, content)]).map Prod.fst).Nodup := by
  rw [List.map_append, List.nodup_append]
  refine ⟨distinct, by simp, ?_⟩
  intro left first right second same
  have : right = path := by simpa using second
  exact absent (this ▸ same ▸ first)

/-- Writes a file: what a path held before is replaced. -/
def put (tree : FileTree) (path : Path) (content : Bytes) : FileTree :=
  if present : path ∈ tree.files.map Prod.fst then
    { tree with
      files := tree.files.map fun file => (file.1, if file.1 = path then content else file.2)
      distinct := by simpa [Function.comp_def] using tree.distinct }
  else
    { tree with
      files := tree.files ++ [(path, content)]
      distinct := distinct_put tree.distinct path content present }

def addDirectory (tree : FileTree) (path : Path) : FileTree :=
  { tree with directories := path :: tree.directories }

/-- The path is no file, and it is the root or something lies below it. -/
def isDirectory (tree : FileTree) (path : Path) : Bool :=
  (tree.content? path).isNone &&
    (path.isEmpty || tree.directories.any (path.isPrefixOf ·) ||
      tree.files.any (path.isPrefixOf ·.1))

/-- What a written path names. The empty path names nothing, and a path that
asks for a directory names no file. -/
def find (tree : FileTree) (name : Bytes) : Entry :=
  if (Path.written name).isEmpty then .missing
  else
    match tree.content? (Path.parse name) with
    | some content =>
      if Path.namesDirectory name then .missing else .file (Path.parse name) content
    | none =>
      if tree.isDirectory (Path.parse name) then .directory (Path.parse name) else .missing

/-- The path at which a file can be written: that of a file, or a new one in a
directory that exists. -/
def writable? (tree : FileTree) (name : Bytes) : Option Path :=
  match tree.find name with
  | .file path _ => some path
  | .directory _ => none
  | .missing =>
    let path := Path.parse name
    if Path.namesDirectory name || !tree.isDirectory path.dropLast then none else some path

/-- The paths of the files below a directory, counted from there. -/
def below (tree : FileTree) (path : Path) : List Path :=
  tree.files.filterMap fun file =>
    if path.isPrefixOf file.1 && path ≠ file.1 then some (file.1.drop path.length) else none

/-- Every file with its written path, in byte order of the paths. -/
def listing (tree : FileTree) : List (Bytes × Bytes) :=
  (tree.files.map fun file => (Path.join file.1, file.2)).mergeSort fun a b => !decide (b.1 < a.1)

end FileTree

/-- A file tree on a device. When the device is full no byte can be added to a
file, but files can still be created and cut to nothing. -/
structure Disk where
  tree : FileTree
  full : Bool := false

namespace Disk

/-- Puts bytes into a content at an offset, over what is there. A gap before them
is filled with zeros. -/
def overwrite (content : Bytes) (offset : Nat) (bytes : Bytes) : Bytes :=
  content.take offset ++ List.replicate (offset - content.length) 0 ++ bytes ++
    content.drop (offset + bytes.length)

/-- Stores bytes in a file at an offset, if the device has room for them. -/
def store? (disk : Disk) (path : Path) (offset : Nat) (bytes : Bytes) : Option Disk :=
  if bytes.isEmpty then some disk
  else if disk.full then none
  else
    let content := (disk.tree.content? path).getD []
    some { disk with tree := disk.tree.put path (overwrite content offset bytes) }

end Disk
end Allman
