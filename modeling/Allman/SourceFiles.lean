import Allman.FileTree

/-! The C files that a target stands for: itself, or every C file below it. -/

namespace Allman

/-- The name ends as that of a C source or header does. -/
def isCFile (name : Bytes) : Bool :=
  (ascii ".c").isSuffixOf name || (ascii ".h").isSuffixOf name

/-- Why a target stands for no files. -/
inductive TargetError where
  | notC (target : Bytes)
  | missing (target : Bytes)
  | noneBelow (target : Bytes)
deriving DecidableEq

def TargetError.message : TargetError → Bytes
  | notC target => ascii "'" ++ target ++ ascii "' is not a C source or header file"
  | missing target => ascii "'" ++ target ++ ascii "' is not a file or directory"
  | noneBelow target => ascii "no .c or .h files found in '" ++ target ++ ascii "'"

/-- The name of a file below a directory, in the spelling of the directory. -/
def nameBelow (directory : Bytes) (path : Path) : Bytes :=
  directory ++ (if directory.getLast? = some Byte.slash then [] else [Byte.slash]) ++ path.join

/-- The C files that a target stands for, in byte order of their names. -/
def collect (tree : FileTree) (target : Bytes) : Except TargetError (List Bytes) :=
  match tree.find target with
  | .file _ _ => if isCFile target then .ok [target] else .error (.notC target)
  | .missing => .error (.missing target)
  | .directory path =>
    match ((tree.below path).map (nameBelow target)).filter isCFile with
    | [] => .error (.noneBelow target)
    | names => .ok (names.mergeSort fun a b => !decide (b < a))

end Allman
