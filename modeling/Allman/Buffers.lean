import Allman.FileHandle
import Allman.Lines

/-! Numbered buffers. A buffer holds a name and a text, read from a file or given
directly, and a buffer that was opened for writing holds the open file. Numbers
count from one and are never used twice; an attempt to open a file uses one up
even when it fails. -/

namespace Allman

/-- Why a file could not be used. -/
inductive FileError where
  | cannotRead
  | cannotOpen
  | cannotWrite
deriving DecidableEq

def FileError.message : FileError → Bytes
  | cannotRead => ascii "failed to open file for reading"
  | cannotOpen => ascii "failed to open file for writing"
  | cannotWrite => ascii "failed to write file"

structure Buffer where
  name : Bytes
  lines : Lines
  writer : Option Writer := none
deriving DecidableEq

namespace Buffer

def ofText (name text : Bytes) : Buffer := { name, lines := Lines.ofText text }

def content (buffer : Buffer) : Bytes := buffer.lines.text

end Buffer

/-- The buffers in use, the last one made first. -/
structure Buffers where
  next : Nat := 1
  live : List (Nat × Buffer) := []
deriving DecidableEq

namespace Buffers

def find? (buffers : Buffers) (id : Nat) : Option Buffer := buffers.live.lookup id

def size (buffers : Buffers) : Nat := buffers.live.length

/-- The name of a buffer; one that is not in use has the empty name. -/
def name (buffers : Buffers) (id : Nat) : Bytes := (buffers.find? id).elim [] Buffer.name

def content (buffers : Buffers) (id : Nat) : Bytes := (buffers.find? id).elim [] Buffer.content

def writer? (buffers : Buffers) (id : Nat) : Option Writer :=
  (buffers.find? id).bind Buffer.writer

def line (buffers : Buffers) (id line : Nat) : Bytes :=
  (buffers.find? id).elim [] (·.lines.line line)

/-- The position of an offset in a buffer; in one that is not in use it is the start. -/
def position (buffers : Buffers) (id offset : Nat) : Position :=
  (buffers.find? id).elim {} (·.lines.position offset)

def extent (buffers : Buffers) (id start stop : Nat) : Extent :=
  ⟨id, buffers.position id start, buffers.position id stop⟩

/-- Uses up a number. -/
def skip (buffers : Buffers) : Buffers := { buffers with next := buffers.next + 1 }

/-- Adds a buffer under the next number. -/
def add (buffers : Buffers) (buffer : Buffer) : Nat × Buffers :=
  (buffers.next, ⟨buffers.next + 1, (buffers.next, buffer) :: buffers.live⟩)

/-- Reads a file into a buffer. -/
def openRead (buffers : Buffers) (tree : FileTree) (name : Bytes) :
    Except FileError Nat × Buffers :=
  match (Reader.ofName tree name).readAll.1 with
  | some content =>
    let (id, buffers) := buffers.add (.ofText name content)
    (.ok id, buffers)
  | none => (.error .cannotRead, buffers.skip)

/-- Opens a file for writing, with an empty buffer. -/
def openWrite (buffers : Buffers) (disk : Disk) (name : Bytes) :
    Except FileError Nat × Buffers × Disk :=
  match Writer.open? disk name with
  | some (writer, disk) =>
    let (id, buffers) := buffers.add { Buffer.ofText name [] with writer := some writer }
    (.ok id, buffers, disk)
  | none => (.error .cannotOpen, buffers.skip, disk)

/-- Replaces the writer of a buffer. -/
def setWriter (buffers : Buffers) (id : Nat) (writer : Writer) : Buffers :=
  { buffers with
    live := buffers.live.map fun entry =>
      (entry.1, if entry.1 = id then { entry.2 with writer := some writer } else entry.2) }

/-- Lets the writer of a buffer act, if it has one. -/
def useWriter (buffers : Buffers) (disk : Disk) (id : Nat)
    (action : Writer → Disk → Writer × Disk) : Buffers × Disk :=
  match buffers.writer? id with
  | none => (buffers, disk)
  | some writer =>
    let (writer, disk) := action writer disk
    (buffers.setWriter id writer, disk)

/-- Closes the file that a buffer is written to. -/
def close (buffers : Buffers) (disk : Disk) (id : Nat) : Buffers × Disk :=
  buffers.useWriter disk id Writer.close

/-- Gives a buffer up. -/
def release (buffers : Buffers) (disk : Disk) (id : Nat) : Buffers × Disk :=
  let (buffers, disk) := buffers.close disk id
  ({ buffers with live := buffers.live.filter (·.1 ≠ id) }, disk)

/-- Writes a whole file. The buffer that serves for it is given up again. -/
def writeFile (buffers : Buffers) (disk : Disk) (name content : Bytes) :
    Except FileError Nat × Buffers × Disk :=
  match buffers.openWrite disk name with
  | (.error error, buffers, disk) => (.error error, buffers, disk)
  | (.ok id, buffers, disk) =>
    let (buffers, disk) := buffers.useWriter disk id (·.write · content)
    let (buffers, disk) := buffers.useWriter disk id Writer.flush
    let written := buffers.writer? id |>.any fun writer =>
      writer.sound && writer.offset == content.length
    let (buffers, disk) := buffers.release disk id
    (if written then .ok content.length else .error .cannotWrite, buffers, disk)

/-- Closes every file, the last one opened first. -/
def closeAll (buffers : Buffers) (disk : Disk) : Disk :=
  buffers.live.foldl (fun disk entry => (buffers.close disk entry.1).2) disk

end Buffers
end Allman
