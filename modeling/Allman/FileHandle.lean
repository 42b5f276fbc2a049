import Allman.FileTree

/-! Open files. A writer keeps what is written in a buffer and stores it when the
buffer is full, on a long write, on a flush, and when it is closed. A handle that
has met an error is out of order for good. -/

namespace Allman

/-- A file that is open for writing, from its start. -/
structure Writer where
  path : Path
  isOpen : Bool := true
  /-- No error has been met. -/
  sound : Bool := true
  /-- The number of bytes stored. -/
  stored : Nat := 0
  /-- What has been written and is not stored. -/
  pending : Bytes := []
deriving DecidableEq

namespace Writer

/-- The buffer is stored once it would hold this many bytes. -/
def bufferSize : Nat := 8191

/-- A write of this many bytes is not kept back, however empty the buffer is. -/
def longWrite : Nat := 1024

/-- The buffer keeps a write if the write is not long and does not fill it. -/
def keepsBack (writer : Writer) (bytes : Bytes) : Bool :=
  bytes.length < longWrite && writer.pending.length + bytes.length < bufferSize

/-- Creates a file, or cuts it to nothing, and opens it. -/
def open? (disk : Disk) (name : Bytes) : Option (Writer × Disk) :=
  (disk.tree.writable? name).map fun path =>
    ({ path }, { disk with tree := disk.tree.put path [] })

/-- The number of bytes written. -/
def offset (writer : Writer) : Nat := writer.stored + writer.pending.length

/-- Stores the buffer with more bytes after it. -/
def store (writer : Writer) (disk : Disk) (more : Bytes) : Writer × Disk :=
  let bytes := writer.pending ++ more
  match disk.store? writer.path writer.stored bytes with
  | some disk => ({ writer with stored := writer.stored + bytes.length, pending := [] }, disk)
  | none => ({ writer with sound := false }, disk)

/-- Writes bytes. Nothing happens if there are none or the writer is out of order;
writing to a closed file is an error. -/
def write (writer : Writer) (disk : Disk) (bytes : Bytes) : Writer × Disk :=
  if !writer.sound || bytes.isEmpty then (writer, disk)
  else if !writer.isOpen then ({ writer with sound := false }, disk)
  else if writer.keepsBack bytes then
    ({ writer with pending := writer.pending ++ bytes }, disk)
  else writer.store disk bytes

/-- Stores what is pending. The writer is sound afterwards if all went well. -/
def flush (writer : Writer) (disk : Disk) : Writer × Disk :=
  if writer.sound then writer.store disk [] else (writer, disk)

/-- Stores what is pending and closes the file. Closing it again is an error. -/
def close (writer : Writer) (disk : Disk) : Writer × Disk :=
  if writer.isOpen then
    let (writer, disk) := writer.store disk []
    ({ writer with isOpen := false }, disk)
  else ({ writer with sound := false }, disk)

end Writer

/-- A file that is open for reading. -/
structure Reader where
  isOpen : Bool
  /-- No error has been met. -/
  sound : Bool
  /-- What has not been read. -/
  unread : Bytes
deriving DecidableEq

namespace Reader

/-- Opens a file. A reader for a file that does not exist is out of order. So is one for a
directory: here it is refused at once, where the streams of some systems open it and
fail on the first read. -/
def ofName (tree : FileTree) (name : Bytes) : Reader :=
  match tree.find name with
  | .file _ content => ⟨true, true, content⟩
  | _ => ⟨false, false, []⟩

/-- Reads to the end of the file. A closed file has nothing to read, and a reader
that is out of order fails. -/
def readAll (reader : Reader) : Option Bytes × Reader :=
  if reader.sound then (some reader.unread, { reader with unread := [] }) else (none, reader)

/-- Closes the file. Closing it again is an error. -/
def close (reader : Reader) : Reader :=
  if reader.isOpen then { reader with isOpen := false, unread := [] }
  else { reader with sound := false }

end Reader
end Allman
