import Allman.Log

/-! Checking the files of a disk one after the other. Every buffer that a check
needs is given up before it ends, so a session can go through any number of files. -/

namespace Allman

/-- A file that could not be checked. -/
structure CheckError where
  path : Bytes
  cause : FileError
deriving DecidableEq

def CheckError.message (error : CheckError) : Bytes :=
  error.path ++ ascii ": " ++ error.cause.message

inductive Mode where
  | scan
  | fix
deriving DecidableEq

/-- What a check has found and done. -/
structure Outcome where
  path : Bytes
  found : Nat
  fixed : Nat := 0
  /-- The violations that are there afterwards. -/
  remaining : Nat
  written : Bool := false
deriving DecidableEq

structure Session where
  disk : Disk
  buffers : Buffers := {}
  log : Log := {}

namespace Session

/-- Gives a buffer up. -/
def release (session : Session) (id : Nat) : Session :=
  let (buffers, disk) := session.buffers.release session.disk id
  { session with buffers, disk }

/-- Prints warnings for the violations of a buffer, unless the session is to be quiet. -/
def tell (session : Session) (quiet : Bool) (id : Nat) (skipped : Bool)
    (violations : List Violation) : Session :=
  if quiet then session
  else
    { session with
      log := Log.settle (session.log.emitAll session.buffers id skipped violations) }

/-- Reports on the text in a buffer and gives the buffer up. -/
def scanBuffer (session : Session) (quiet : Bool) (path : Bytes) (id : Nat) :
    Outcome × Session :=
  let report := scan (session.buffers.content id)
  let session := (session.tell quiet id false report.violations).release id
  ({ path, found := report.count, remaining := report.count }, session)

/-- Writes a fixed text, if it differs from the text it was made from. -/
def save (session : Session) (path old new : Bytes) : Except FileError Bool × Session :=
  if new = old then (.ok false, session)
  else
    let (result, buffers, disk) := session.buffers.writeFile session.disk path new
    (result.map fun _ => true, { session with buffers, disk })

/-- Reports on a fixed text, and on the violations that could not be fixed. -/
def reviewFixed (session : Session) (quiet : Bool) (path : Bytes) (id : Nat)
    (fixed : FixedText) : Nat × Session :=
  let (fixedId, buffers) := session.buffers.add (.ofText path fixed.text)
  let session := { session with buffers }
  let left := scan fixed.text
  let session := session.tell quiet fixedId false left.violations
  let session := session.tell quiet id true fixed.report.skipped
  (left.count, (session.release fixedId).release id)

/-- Fixes the text in a buffer, writes it to its file, and gives the buffer up. -/
def fixBuffer (session : Session) (quiet : Bool) (path : Bytes) (id : Nat) :
    Except CheckError Outcome × Session :=
  let text := session.buffers.content id
  let fixed := fix text
  match session.save path text fixed.text with
  | (.error cause, session) => (.error ⟨path, cause⟩, session.release id)
  | (.ok written, session) =>
    let (remaining, session) := session.reviewFixed quiet path id fixed
    let found := fixed.report.count
    (.ok { path, found, fixed := found - remaining, remaining, written }, session)

/-- Checks a file, and in fix mode puts it right. -/
def check (session : Session) (mode : Mode) (quiet : Bool) (path : Bytes) :
    Except CheckError Outcome × Session :=
  match session.buffers.openRead session.disk.tree path with
  | (.error cause, buffers) => (.error ⟨path, cause⟩, { session with buffers })
  | (.ok id, buffers) =>
    let session := { session with buffers }
    match mode with
    | .scan =>
      let (outcome, session) := session.scanBuffer quiet path id
      (.ok outcome, session)
    | .fix => session.fixBuffer quiet path id

end Session
end Allman
