import Allman.CommandLine

/-! The program itself. It loads the files that the arguments speak of into a file
tree, runs on that, and writes back the files that have changed. -/

namespace Allman

/-- A file of the tree and the name that the operating system knows it by. -/
structure LoadedFile where
  path : Path
  name : String
  content : Bytes

def bytesOf (text : String) : Bytes := text.toUTF8.toList

/-- The C files below a directory. Links to directories are not followed. -/
partial def loadDirectory (name : String) : IO (List LoadedFile) := do
  let mut loaded := []
  for entry in ← (← IO.FS.realPath name).readDir do
    let child := name ++ "/" ++ entry.fileName
    if (← entry.path.symlinkMetadata).type == .dir then
      loaded := loaded ++ (← loadDirectory child)
    else if isCFile (bytesOf child) && (← entry.path.metadata).type == .file then
      let content := (← IO.FS.readBinFile child).toList
      loaded := loaded ++ [⟨Path.parse (bytesOf child), child, content⟩]
  return loaded

/-- The files that a target stands for, and the target itself if it is a directory. -/
def loadTarget (name : String) : IO (List LoadedFile × List Path) := do
  let path := Path.parse (bytesOf name)
  let kind ← try
      pure (some (← (← IO.FS.realPath name).metadata).type)
    catch _ => pure none
  match kind with
  | some .dir => return (← loadDirectory name, [path])
  | some .file => return ([⟨path, name, (← IO.FS.readBinFile name).toList⟩], [])
  | _ => return ([], [])

/-- What the arguments make the program look at. -/
def loadArguments (vector : List Bytes) : IO (List LoadedFile × List Path) := do
  match Command.parse (vector.drop 1) with
  | some (.run options) =>
    match String.fromUTF8? options.target.toByteArray with
    | some name => loadTarget name
    | none => return ([], [])
  | _ => return ([], [])

def treeOf (files : List LoadedFile) (directories : List Path) : FileTree :=
  let tree := files.foldl (fun tree file => tree.put file.path file.content) FileTree.empty
  directories.foldl FileTree.addDirectory tree

/-- Writes back the files that a run has changed, and complains about those that
cannot be written. -/
def saveChanges (program : Bytes) (files : List LoadedFile) (tree : FileTree) : IO Bytes := do
  let mut complaints := []
  for file in files do
    let content := (tree.content? file.path).getD file.content
    if content ≠ file.content then
      try IO.FS.writeBinFile file.name content.toByteArray
      catch _ =>
        let error : CheckError := ⟨bytesOf file.name, .cannotWrite⟩
        complaints := complaints ++ program ++ ascii ": error: " ++ error.message ++ ascii "\n"
  return complaints

end Allman

open Allman in
def main (arguments : List String) : IO UInt32 := do
  let vector := bytesOf (← IO.appPath).toString :: arguments.map bytesOf
  let (files, directories) ← loadArguments vector
  let result := runArguments vector { tree := treeOf files directories }
  let program := programName (vector.head?.getD [])
  let complaints ← saveChanges program files result.tree
  (← IO.getStdout).write result.output.toByteArray
  (← IO.getStderr).write (result.errors ++ complaints).toByteArray
  return if complaints.isEmpty then result.exit.toUInt32 else 1
